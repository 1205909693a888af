import LintDebt.Proofs.Workflow.Compressing
import LintDebt.Proofs.Workflow.Elimination

/-! # What a run accounts for

A run with an outcome went one of a few ways, and `Compresses` and `Eliminates` list them: what could be
read, which questions were asked and how they ended, how the file of each failing report was annotated,
and whether the list was written. A question may also fail because the list cannot be moved, which is
said where questions are (`Query.Asking`). Each way fixes the status of the outcome and its failures:
the messages of the steps that failed, in the order of the steps, and of no others. -/

namespace LintDebt.Workflow

open Query

/-- The patterns examined so far, one after the other: each is a question that was answered and the
verdict on the answer. -/
inductive Examination (s : Settings) (base : Path) (config : Json.Fields) (t : FileTree)
    (start : Examined) : List IgnoreList.Entry → List Call → Examined → FileTree → Prop where
  | nil : Examination s base config t start [] [] start t
  | concat {done : List IgnoreList.Entry} {calls asked : List Call} {x : Examined} {t₁ t₂ : FileTree}
    {reports : List Report} {v : Verdict} (hdone : Examination s base config t start done calls x t₁)
    (e : IgnoreList.Entry) (hask : Asking (listPath s base) config e.files t₁ asked (.ok reports) t₂)
    (hv : Judged t₂ base e reports v) :
    Examination s base config t start (done ++ [e]) (calls ++ asked) (x.add e v) t₂

/-- What a compression went through that examined every pattern of the list. -/
structure Examines (s : Settings) (base : Path) (t : FileTree) (config : Json.Fields)
    (lines : List String) (calls : List Call) (x : Examined) (t' : FileTree) : Prop where
  examined : ∃ entries stats, Prepared t s base config lines entries ∧
    Examination s base config t ⟨begun stats, [], []⟩ entries calls x t'

/-- What a compression went through that wrote the list anew. -/
structure Rewrites (s : Settings) (base : Path) (t : FileTree) (config : Json.Fields)
    (calls : List Call) (x : Examined) (t' : FileTree) : Prop where
  written : ∃ lines t₁, Examines s base t config lines calls x t₁ ∧
    TextFile.write t₁ (listPath s base) (x.kept.renderOver lines) = .ok t'

/-- How a compression goes that ends with an outcome, from the tree `t`: its calls, the status and the
failures of the outcome, and the tree that it leaves. -/
inductive Compresses (s : Settings) (base : Path) (t : FileTree) :
    List Call → Status → List String → FileTree → Prop where
  /-- The list or the configuration cannot be read. -/
  | unread (e : ToolError) (h : Unread t s base (.tool e)) :
    Compresses s base t [] .aborted [e.message] t
  /-- The question about the files of one of the patterns fails. -/
  | unanswered {config : Json.Fields} {lines : List String} {entries done rest : IgnoreList}
    {entry : IgnoreList.Entry} {stats : Option Counts} {calls asked : List Call} {x : Examined}
    {t₁ t' : FileTree} (hprepared : Prepared t s base config lines entries)
    (hentries : entries = done ++ entry :: rest)
    (hdone : Examination s base config t ⟨begun stats, [], []⟩ done calls x t₁) (e : ToolError)
    (hask : Asking (listPath s base) config entry.files t₁ asked (.error (.tool e)) t') :
    Compresses s base t (calls ++ asked) .aborted [e.message] t'
  /-- The list cannot be written. -/
  | unwritten {config : Json.Fields} {lines : List String} {calls : List Call} {x : Examined}
    {t' : FileTree} (hexamines : Examines s base t config lines calls x t') (e : ToolError)
    (hwrite : TextFile.write t' (listPath s base) (x.kept.renderOver lines) = .error (.tool e)) :
    Compresses s base t calls .aborted [e.message] t'
  /-- The question about the files that are left fails. -/
  | uncounted {config : Json.Fields} {calls asked : List Call} {x : Examined} {t₂ t' : FileTree}
    (hrewrites : Rewrites s base t config calls x t₂) (e : ToolError)
    (hask : Asking (listPath s base) config x.kept.files t₂ asked (.error (.tool e)) t') :
    Compresses s base t (calls ++ asked) .aborted [e.message] t'
  /-- The new list cannot be measured. -/
  | unmeasured {config : Json.Fields} {calls asked : List Call} {x : Examined} {t₂ t' : FileTree}
    {remaining : List Report} (hrewrites : Rewrites s base t config calls x t₂)
    (hask : Asking (listPath s base) config x.kept.files t₂ asked (.ok remaining) t') (e : ToolError)
    (hmeasure : TextFile.measure t' (listPath s base) = .error (.tool e)) :
    Compresses s base t (calls ++ asked) .aborted [e.message] t'
  /-- Every step succeeds. -/
  | finished {config : Json.Fields} {calls asked : List Call} {x : Examined} {t₂ t' : FileTree}
    {remaining : List Report} {stats : TextFile.Stats} (hrewrites : Rewrites s base t config calls x t₂)
    (hask : Asking (listPath s base) config x.kept.files t₂ asked (.ok remaining) t')
    (hmeasure : TextFile.measure t' (listPath s base) = .ok stats) :
    Compresses s base t (calls ++ asked) .ok [] t'

/-- How the annotation of the file of each of some reports ended, one after the other. -/
inductive AnnotatedAll (base : Path) (style : Suppression.Style) :
    FileTree → List Report → List (Except Failure Int) → FileTree → Prop where
  | nil (t : FileTree) : AnnotatedAll base style t [] [] t
  | cons {t t₁ t' : FileTree} {r : Report} {rest : List Report} {p : Path}
    {result : Except Failure Int} {results : List (Except Failure Int)}
    (hpath : sourcePath t base r.source = .ok p)
    (hannotated : Annotated style p (.ofViolations r.warnings) t result t₁)
    (hrest : AnnotatedAll base style t₁ rest results t') :
    AnnotatedAll base style t (r :: rest) (result :: results) t'

/-- What an elimination went through that annotated the files of the failing reports, each to its end:
a file may have failed, but not with a fault. -/
structure Annotates (s : Settings) (base : Path) (style : Suppression.Style) (t : FileTree)
    (config : Json.Fields) (files : List Path) (asked : List Call)
    (results : List (Except Failure Int)) (t' : FileTree) : Prop where
  surveyed : Surveyed t s base config files
  annotated : ∃ reports t₁, Asking (listPath s base) config files t asked (.ok reports) t₁ ∧
    AnnotatedAll base style t₁ (reports.filter Report.errored) results t'
  goes : ∀ result ∈ results, NoFault result

/-- How an elimination goes that ends with an outcome, from the tree `t`: its calls, the status and the
failures of the outcome, and the tree that it leaves. -/
inductive Eliminates (s : Settings) (base : Path) (style : Suppression.Style) (t : FileTree) :
    List Call → Status → List String → FileTree → Prop where
  /-- The list or the configuration cannot be read. -/
  | unsurveyed (e : ToolError) (h : Unsurveyed t s base (.tool e)) :
    Eliminates s base style t [] .aborted [e.message] t
  /-- The question about the files fails. -/
  | unanswered {config : Json.Fields} {files : List Path} {asked : List Call} {t' : FileTree}
    (hsurveyed : Surveyed t s base config files) (e : ToolError)
    (hask : Asking (listPath s base) config files t asked (.error (.tool e)) t') :
    Eliminates s base style t asked .aborted [e.message] t'
  /-- Every file is annotated, and the list cannot be emptied. -/
  | unwritten {config : Json.Fields} {files : List Path} {asked : List Call}
    {results : List (Except Failure Int)} {t' : FileTree}
    (hannotates : Annotates s base style t config files asked results t')
    (hnone : results.filterMap failureText = []) (e : ToolError)
    (hwrite : TextFile.write t' (listPath s base) [] = .error (.tool e)) :
    Eliminates s base style t asked .aborted [e.message] t'
  /-- The list is emptied, unless a file failed, and the last question fails. -/
  | uncounted {config : Json.Fields} {files : List Path} {asked later : List Call}
    {results : List (Except Failure Int)} {t₂ t₃ t' : FileTree}
    (hannotates : Annotates s base style t config files asked results t₂)
    (hlist : if results.filterMap failureText = [] then TextFile.write t₂ (listPath s base) [] = .ok t₃
      else t₃ = t₂) (e : ToolError)
    (hlast : Asking (listPath s base) config files t₃ later (.error (.tool e)) t') :
    Eliminates s base style t (asked ++ later) .partly (results.filterMap failureText ++ [e.message]) t'
  /-- The list is emptied, unless a file failed, and the last question is answered. -/
  | counted {config : Json.Fields} {files : List Path} {asked later : List Call}
    {results : List (Except Failure Int)} {t₂ t₃ t' : FileTree} {remaining : List Report}
    (hannotates : Annotates s base style t config files asked results t₂)
    (hlist : if results.filterMap failureText = [] then TextFile.write t₂ (listPath s base) [] = .ok t₃
      else t₃ = t₂)
    (hlast : Asking (listPath s base) config files t₃ later (.ok remaining) t') :
    Eliminates s base style t (asked ++ later)
      (if results.filterMap failureText = [] then .ok else .partly) (results.filterMap failureText) t'

/-- How a run goes that ends with an outcome. -/
def Task.Goes (s : Settings) (base : Path) (t : FileTree) (calls : List Call) (status : Status)
    (failures : List String) (t' : FileTree) : Task → Prop
  | .compress => Compresses s base t calls status failures t'
  | .eliminate style => Eliminates s base style t calls status failures t'

/-- What a run has got through that started from `t` and ended well. -/
structure Unhindered (t : FileTree) (s : Settings) (base : Path) (calls : List Call) : Prop where
  config : ∃ config, LintConfig.load t (lintConfigPath s base).text = .ok config
  list : ∃ lines, TextFile.lines t (listPath s base) = .ok lines ∧
    ∀ line ∈ lines, IgnoreList.isRemark line = false →
      ∃ files, Glob.resolvePattern t base (s.patterns.expand line) = .ok files
  answered : ∀ c ∈ calls, ∃ reports, c.answer = .ok reports

variable {σ : Type} {task : Task} {s : Settings} {base list : Path} {style : Suppression.Style}
  {config : Json.Fields} {files : List Path} {t t' : FileTree} {calls asked : List Call}
  {reports : List Report} {status : Status} {failures : List String}

/-- A question that succeeds is one that was answered. -/
theorem answered_of_asking (hask : Asking list config files t asked (.ok reports) t') :
    ∀ c ∈ asked, ∃ reports, c.answer = .ok reports := by
  rcases hask.answer with ⟨-, rfl, -⟩ | ⟨c, rfl, -, hanswer⟩
  · simp
  · simp [hanswer]

theorem Examination.answered {start x : Examined} {done : List IgnoreList.Entry}
    (h : Examination s base config t start done calls x t') :
    ∀ c ∈ calls, ∃ reports, c.answer = .ok reports := by
  induction h with
  | nil => simp
  | concat _ e hask _ ih => exact List.forall_mem_append.mpr ⟨ih, answered_of_asking hask⟩

theorem Compresses.ok_iff (h : Compresses s base t calls status failures t') :
    status = .ok ↔ failures = [] := by
  cases h <;> simp

theorem Compresses.unhindered (h : Compresses s base t calls .ok failures t') :
    Unhindered t s base calls := by
  cases h with
  | finished hrewrites hask _ =>
    obtain ⟨lines, t₁, ⟨entries, stats, hprepared, hdone⟩, -⟩ := hrewrites.written
    exact ⟨⟨_, hprepared.loaded⟩, ⟨lines, hprepared.found, hprepared.resolves⟩,
      List.forall_mem_append.mpr ⟨hdone.answered, answered_of_asking hask⟩⟩

/-- The annotations of a run, each described by what it met and left. -/
theorem Annotations.annotatedAll {results : List (Except Failure Int)}
    (h : Annotations σ base style t reports results t') :
    AnnotatedAll base style t reports results t' := by
  induction h with
  | nil t => exact .nil t
  | @cons w r _ _ _ p hpath _ ih =>
    exact .cons hpath (annotated_runFrom p (.ofViolations r.warnings) style w) ih

theorem Eliminates.ok_iff (h : Eliminates s base style t calls status failures t') :
    status = .ok ↔ failures = [] := by
  cases h <;> simp

/-- What a survey that succeeded has got through. -/
theorem Surveyed.unhindered (h : Surveyed t s base config files)
    (hcalls : ∀ c ∈ calls, ∃ reports, c.answer = .ok reports) : Unhindered t s base calls := by
  obtain ⟨m, hm, -⟩ := h.files
  obtain ⟨lines, hlines⟩ := IgnoreList.exists_lines_of_read hm
  exact ⟨⟨_, h.config⟩, ⟨lines, hlines, IgnoreList.resolves_of_readLines
    (IgnoreList.readLines_of_read hm hlines)⟩, hcalls⟩

theorem Eliminates.unhindered (h : Eliminates s base style t calls status failures t')
    (hok : status = .ok) : Unhindered t s base calls := by
  cases h with
  | counted hannotates _ hlast =>
    obtain ⟨reports, t₁, hask, -⟩ := hannotates.annotated
    exact hannotates.surveyed.unhindered
      (List.forall_mem_append.mpr ⟨answered_of_asking hask, answered_of_asking hlast⟩)
  | unsurveyed | unanswered | unwritten | uncounted => cases hok

/-- A run that ends well lists no failure, and any other lists one. -/
theorem Task.Goes.ok_iff (h : task.Goes s base t calls status failures t') :
    status = .ok ↔ failures = [] := by
  cases task with
  | compress => exact Compresses.ok_iff h
  | eliminate style => exact Eliminates.ok_iff h

theorem Task.Goes.unhindered (h : task.Goes s base t calls status failures t') (hok : status = .ok) :
    Unhindered t s base calls := by
  cases task with
  | compress =>
    subst hok
    exact Compresses.unhindered h
  | eliminate style => exact Eliminates.unhindered h hok

end LintDebt.Workflow
