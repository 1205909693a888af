import LintDebt.Proofs.Workflow.Annotating
import LintDebt.Proofs.Workflow.Surveying

/-! # The course of an elimination

An elimination surveys, annotates the files of the failing reports one after the other, empties the
list if that worked for all of them, and counts the errors that are left. `ends_eliminate_of` is the
rule for the survey and its question, `ends_work` the one for what comes after it. What is left to say
of a property of whole runs is that it holds where a run stops, and what the last question adds. -/

namespace LintDebt.Workflow

open Job FileTree Query

/-- The outcome of an elimination when the first file is annotated. -/
def assessed (reports : List Report) : Outcome :=
  { Outcome.start "eliminate" with errorsBefore := some (countErrors reports) }

@[simp] theorem status_assessed (reports : List Report) : (assessed reports).status = .ok := rfl

@[simp] theorem failures_assessed (reports : List Report) : (assessed reports).failures = [] := rfl

@[simp] theorem filesProcessed_assessed (reports : List Report) :
    (assessed reports).filesProcessed = 0 := rfl

/-- What an elimination does once its survey succeeded. -/
def work {σ : Type} (l : Linter σ) (s : Settings) (base : Path) (style : Suppression.Style)
    (config : Json.Fields) (files : List Path) (reports : List Report) : Job σ Outcome := do
  let list := listPath s base
  let o ← annotateAll base style (assessed reports) reports
  if o.failures.isEmpty then
    stage o s!"truncating {list}" (writeList list []) fun _ => recount l config files list o
  else
    Job.note .warning .workflows
      s!"Keeping {list}, {o.failures.length} file(s) could not be annotated"
    recount l config files list o

/-- What annotating the files of the failing reports came to, and the outcome and the tree after it. -/
structure Worked (σ : Type) (base : Path) (style : Suppression.Style) (reports : List Report)
    (t : FileTree) (results : List (Except Failure Int)) (o : Outcome) (t' : FileTree) : Prop where
  annotations : Annotations σ base style t (reports.filter Report.errored) results t'
  goes : ∀ result ∈ results, NoFault result
  outcome : o = results.foldl record (assessed reports)

/-- Holds for the tree with the list emptied, if no file failed, and for the tree as it is otherwise. -/
inductive Truncated (list : Path) (o : Outcome) (t t' : FileTree) : Prop where
  | emptied (hnone : o.failures = []) (hwrite : t.write list.text [] = .ok t')
  | kept (hsome : o.failures ≠ []) (htree : t' = t)

variable {σ : Type} {l : Linter σ} {s : Settings} {base : Path} {style : Suppression.Style}
  {config : Json.Fields} {files : List Path} {reports : List Report}

theorem eliminate_eq : eliminate l s base style =
    stage (Outcome.start "eliminate") s!"reading {listPath s base}" (survey l s base)
      fun (config, files, reports) => work l s base style config files reports := rfl

/-- The survey of an elimination and its question. `P` is whatever else is known of the survey. -/
theorem ends_eliminate_of {w : World (σ × List Call)}
    {Q : Except Failure Outcome → FileTree → σ × List Call → Prop}
    {P : Except Failure (Json.Fields × List Path × List Report) → FileTree → σ × List Call → Prop}
    (hcalls : w.state.2 = []) (hsurvey : (survey l.watched s base).Ends w P)
    (hstop : ∀ e state, Unsurveyed w.tree s base e → P (.error e) w.tree (state, []) →
      Settled (Outcome.start "eliminate") Q e w.tree (state, []))
    (hlost : ∀ config files, Surveyed w.tree s base config files → ∀ asked e t state,
      Asking (listPath s base) config files w.tree asked (.error e) t → P (.error e) t (state, asked) →
        Settled (Outcome.start "eliminate") Q e t (state, asked))
    (hwork : ∀ config files, Surveyed w.tree s base config files → ∀ asked reports t state,
      Asking (listPath s base) config files w.tree asked (.ok reports) t →
        P (.ok (config, files, reports)) t (state, asked) → ∀ log,
          (work l.watched s base style config files reports).Ends ⟨t, (state, asked), log⟩ Q) :
    (eliminate l.watched s base style).Ends w Q := by
  rw [eliminate_eq]
  refine ends_stage ((ends_survey.and hsurvey).mono fun r t x ⟨hends, hP⟩ => ?_)
  obtain ⟨state, calls⟩ := x
  rcases hends with ⟨e, he, rfl, rfl, hsame⟩ | ⟨config, files, h, asked, answer, hasked, hask, rfl⟩
  · obtain rfl : calls = [] := hsame.trans hcalls
    exact hstop e state he hP
  obtain rfl : calls = asked := by
    rw [show calls = w.state.2 ++ asked from hasked, hcalls]
    rfl
  cases answer with
  | error e => exact hlost config files h calls e t state hask hP
  | ok reports => exact hwork config files h calls reports t state hask hP

/-- What comes after the survey, up to the last question. `P` is whatever else is known of the
annotations. -/
theorem ends_work {w : World σ} {Q : Except Failure Outcome → FileTree → σ → Prop}
    {P : Except Failure Outcome → FileTree → Prop}
    (hannotate : (annotateAll base style (assessed reports) reports).Ends w fun r t _ => P r t)
    (hstop : ∀ e t, P (.error e) t → Q (.error e) t w.state)
    (hrefused : ∀ results o t, Worked σ base style reports w.tree results o t → P (.ok o) t →
      o.failures = [] → ∀ e, TextFile.write t (listPath s base) [] = .error e → Settled o Q e t w.state)
    (hlast : ∀ results o t, Worked σ base style reports w.tree results o t → P (.ok o) t →
      ∀ t', Truncated (listPath s base) o t t' → ∀ log,
        (recount l config files (listPath s base) o).Ends ⟨t', w.state, log⟩ Q) :
    (work l s base style config files reports).Ends w Q := by
  rw [work]
  refine Ends.bind (((ends_annotateAll (J := fun _ => True) (fun _ _ _ _ _ _ _ _ => trivial)
    trivial).and hannotate).mono fun r t x ⟨⟨hstate, _, hgood⟩, hP⟩ => ?_)
  subst hstate
  cases r with
  | error e => exact hstop e t hP
  | ok o =>
    intro log
    obtain ⟨results, hannotations, hgoes, ho⟩ := hgood o rfl
    have hworked : Worked σ base style reports w.tree results o t := ⟨hannotations, hgoes, ho⟩
    split
    · next hempty =>
      have hnone := List.isEmpty_iff.mp hempty
      refine ends_stage_changeTree (hrefused results o t hworked hP hnone) fun t' hwrite log => ?_
      exact hlast results o t hworked hP t' (.emptied hnone (TextFile.write_eq_ok.mp hwrite)) log
    · next hempty =>
      rw [ends_note_bind]
      exact hlast results o t hworked hP t
        (.kept (fun hnone => hempty (List.isEmpty_iff.mpr hnone)) rfl) _

end LintDebt.Workflow
