import LintDebt.Proofs.Query.Showing
import LintDebt.Proofs.Workflow.Telling

/-! # Linters that find the same in a file each time

Such a linter has one report on each file that it is asked about. What it finds there depends on the
lint configuration and on what it reads at the file's path, which may be nothing: the file may be the
list itself, or be found only through it. So the errors of an answer add up file by file. -/

namespace LintDebt

open FileTree Query

/-- What is found in a file: whether it fails, and the warnings. -/
abbrev Finding := Bool × List Violation

/-- What a linter finds in a file with this configuration and this content, if there is any. -/
abbrev View := Json.Fields → Option (List UInt8) → Finding

/-- Holds if the reports on the files with these names are one on each, with what is to be found
there, and none is about anything else. A source is looked up in the tree `t`. -/
structure Rated (t : FileTree) (base : Path) (files : List Path) (names : List String)
    (find : Path → Finding) (reports : List Report) : Prop where
  one : ∀ p ∈ files, p.text ∈ names → (reports.filter fun r => sourcePath t base r.source = .ok p).map
    (fun r => (r.errored, r.warnings)) = [find p]
  source : ∀ r ∈ reports, ∃ p ∈ files, p.text ∈ names ∧ sourcePath t base r.source = .ok p

instance {t : FileTree} {base : Path} {files : List Path} {names : List String}
    {find : Path → Finding} {reports : List Report} :
    Decidable (Rated t base files names find reports) :=
  decidable_of_iff ((∀ p ∈ files, p.text ∈ names →
      (reports.filter fun r => sourcePath t base r.source = .ok p).map
        (fun r => (r.errored, r.warnings)) = [find p]) ∧
      ∀ r ∈ reports, ∃ p ∈ files, p.text ∈ names ∧ sourcePath t base r.source = .ok p)
    ⟨fun h => ⟨h.1, h.2⟩, fun h => ⟨h.one, h.source⟩⟩

/-- Holds if a call changes nothing and its answer, if there is one, has what the linter finds in the
files that it was asked about. -/
def Call.Rates (c : Call) (t : FileTree) (base : Path) (files : List Path) (view : View) : Prop :=
  c.after = c.before ∧ ∀ reports, c.answer = .ok reports →
    Rated t base files c.files (fun p => view c.config (c.before.read p.text).toOption) reports

instance {c : Call} {t : FileTree} {base : Path} {files : List Path} {view : View} :
    Decidable (c.Rates t base files view) :=
  decidable_of_iff (c.after = c.before ∧ ∀ reports ∈ c.answer.toOption,
    Rated t base files c.files (fun p => view c.config (c.before.read p.text).toOption) reports) <| by
    simp only [mem_toOption]
    rfl

/-- The number of violations of error severity among some. -/
def errorCount (warnings : List Violation) : Nat := warnings.countP (·.severity = .error)

/-- The number of errors in some files. -/
def errorTotal (find : Path → Finding) (files : List Path) : Nat :=
  errorCount (files.flatMap fun p => (find p).2)

theorem countErrors_eq (reports : List Report) :
    countErrors reports = errorCount (reports.flatMap Report.warnings) := rfl

variable {t : FileTree} {base p : Path} {files files' : List Path} {names : List String}
  {find find' : Path → Finding} {reports : List Report} {r : Report}

theorem errorTotal_perm (h : files.Perm files') : errorTotal find files = errorTotal find files' :=
  (h.flatMap_right _).countP_eq _

theorem errorTotal_cons :
    errorTotal find (p :: files) = errorCount (find p).2 + errorTotal find files := by
  rw [errorTotal, List.flatMap_cons, errorCount, List.countP_append]
  rfl

namespace Rated

/-- The one report on a file. -/
theorem exists_report (h : Rated t base files names find reports) (hp : p ∈ files)
    (hname : p.text ∈ names) : ∃ r,
      (reports.filter fun r => sourcePath t base r.source = .ok p) = [r] ∧
        (r.errored, r.warnings) = find p := by
  obtain ⟨r, hr, hfound⟩ := List.map_eq_singleton_iff.mp (h.one p hp hname)
  exact ⟨r, hr, hfound⟩

/-- What a report says is what is found in the file that it is about. -/
theorem found (h : Rated t base files names find reports) (hr : r ∈ reports)
    (hp : sourcePath t base r.source = .ok p) :
    p ∈ files ∧ p.text ∈ names ∧ (r.errored, r.warnings) = find p := by
  obtain ⟨q, hq, hname, hsource⟩ := h.source r hr
  cases hp.symm.trans hsource
  obtain ⟨r', hone, hfound⟩ := h.exists_report hq hname
  have hmem : r ∈ reports.filter fun r => sourcePath t base r.source = .ok p :=
    List.mem_filter.mpr ⟨hr, by simpa using hp⟩
  rw [hone, List.mem_singleton] at hmem
  exact ⟨hq, hname, hmem ▸ hfound⟩

theorem congr (h : Rated t base files names find reports)
    (hfind : ∀ p ∈ files, p.text ∈ names → find p = find' p) :
    Rated t base files names find' reports :=
  ⟨fun p hp hname => by rw [h.one p hp hname, hfind p hp hname], h.source⟩

/-- The errors of an answer are those of the files asked about. -/
theorem countErrors_eq (h : Rated t base files names find reports) (hnodup : files.Nodup) :
    countErrors reports = errorTotal find (files.filter (·.text ∈ names)) := by
  have hperm : (reports.filterMap (Workflow.source? t base)).Perm (files.filter (·.text ∈ names)) := by
    refine perm_filterMap (hnodup.filter _) (fun p hp => ?_) fun r hr p hp => ?_
    · obtain ⟨hp, hname⟩ := List.mem_filter.mp hp
      obtain ⟨r, hone, -⟩ := h.exists_report hp (by simpa using hname)
      refine ⟨r, ?_⟩
      rw [← hone]
      exact List.filter_congr fun r _ => decide_eq_decide.mpr Workflow.source?_eq_some
    · obtain ⟨hmem, hname, -⟩ := h.found hr (Workflow.source?_eq_some.mp hp)
      exact List.mem_filter.mpr ⟨hmem, by simpa using hname⟩
  have hall : ∀ r ∈ reports, ∃ p, Workflow.source? t base r = some p ∧ r.warnings = (find p).2 := by
    intro r hr
    obtain ⟨p, -, -, hp⟩ := h.source r hr
    obtain ⟨-, -, hfound⟩ := h.found hr hp
    exact ⟨p, Workflow.source?_eq_some.mpr hp, by rw [← hfound]⟩
  rw [← errorTotal_perm hperm, LintDebt.countErrors_eq, errorTotal]
  refine congrArg errorCount ?_
  clear h hperm
  induction reports with
  | nil => rfl
  | cons r rest ih =>
    obtain ⟨⟨p, hp, hwarnings⟩, hrest⟩ := List.forall_mem_cons.mp hall
    rw [List.filterMap_cons_some hp, List.flatMap_cons, List.flatMap_cons, ih hrest, hwarnings]

end Rated

end LintDebt
