import LintDebt.Proofs.Distinct
import LintDebt.Proofs.Workflow.Compression
import LintDebt.Proofs.Workflow.Tally

/-! # Linters that look at one file at a time

Such a linter has one report on each file that it is asked about, and what the report says depends on
the lint configuration and the octets of that file. So it does not matter with which other files a file
is asked about: it fails in each call or in none, and always with the same errors. -/

namespace LintDebt

open FileTree Query

/-- What a linter says about a file with this configuration and these octets: whether it fails, and the
warnings. -/
abbrev Opinion := Json.Fields → List UInt8 → Bool × List Violation

/-- Holds if a call changes nothing and is answered with one report on each file asked about, which says
this, and with no other report. A source is looked up in the tree `t`. -/
def Call.Tells (c : Call) (t : FileTree) (base : Path) (files : List Path) (opinion : Opinion) : Prop :=
  c.after = c.before ∧ ∃ reports, c.answer = .ok reports ∧
    (∀ p ∈ files, p.text ∈ c.files → ∀ octets, c.before.read p.text = .ok octets →
      (reports.filter fun r => sourcePath t base r.source = .ok p).map
        (fun r => (r.errored, r.warnings)) = [opinion c.config octets]) ∧
    ∀ r ∈ reports, ∃ p ∈ files, p.text ∈ c.files ∧ sourcePath t base r.source = .ok p

instance {c : Call} {t : FileTree} {base : Path} {files : List Path} {opinion : Opinion} :
    Decidable (c.Tells t base files opinion) :=
  decidable_of_iff (c.after = c.before ∧ ∃ reports ∈ c.answer.toOption,
    (∀ p ∈ files, p.text ∈ c.files → ∀ octets ∈ (c.before.read p.text).toOption,
      (reports.filter fun r => sourcePath t base r.source = .ok p).map
        (fun r => (r.errored, r.warnings)) = [opinion c.config octets]) ∧
    ∀ r ∈ reports, ∃ p ∈ files, p.text ∈ c.files ∧ sourcePath t base r.source = .ok p) <| by
    simp only [mem_toOption]
    rfl

/-- Holds for a file that fails with this content. -/
def fails (opinion : Opinion) (config : Json.Fields) (t : FileTree) (p : Path) : Bool :=
  match t.read p.text with
  | .ok octets => (opinion config octets).1
  | .error _ => false

/-- The plan for the file at a place. -/
def planAt (opinion : Opinion) (config : Json.Fields) (t : FileTree) (l : Location) : Suppression.Plan :=
  match t.node? l with
  | some (.file octets) => .ofViolations (opinion config octets).2
  | _ => []

/-- Holds if a call asks about files of this tree with this configuration. -/
structure Call.Sees (c : Call) (t : FileTree) (config : Json.Fields) (files : List Path) : Prop where
  config : c.config = config
  read : ∀ p ∈ files, ∃ octets, t.read p.text = .ok octets ∧ c.before.read p.text = .ok octets

variable {c : Call} {t : FileTree} {base p : Path} {files : List Path} {opinion : Opinion}
  {config : Json.Fields} {reports : List Report} {octets : List UInt8} {l : Location}

theorem fails_eq (h : t.read p.text = .ok octets) : fails opinion config t p = (opinion config octets).1 := by
  rw [fails, h]

namespace Call.Tells

/-- The report on a file. -/
theorem exists_report (h : c.Tells t base files opinion) (hsees : c.Sees t config files)
    (hanswer : c.answer = .ok reports) (hp : p ∈ files) (hasked : p.text ∈ c.files)
    (hread : t.read p.text = .ok octets) : ∃ r,
      (reports.filter fun r => sourcePath t base r.source = .ok p) = [r] ∧
        (r.errored, r.warnings) = opinion config octets := by
  obtain ⟨-, reports', hanswer', hone, -⟩ := h
  cases hanswer.symm.trans hanswer'
  obtain ⟨octets', hread', hbefore⟩ := hsees.read p hp
  cases hread.symm.trans hread'
  have hmap := hone p hp hasked octets hbefore
  rw [hsees.config] at hmap
  obtain ⟨r, hr, hopinion⟩ := List.map_eq_singleton_iff.mp hmap
  exact ⟨r, hr, hopinion⟩

/-- A report is about a file that was asked about. -/
theorem exists_source (h : c.Tells t base files opinion) (hanswer : c.answer = .ok reports) {r : Report}
    (hr : r ∈ reports) : ∃ p ∈ files, p.text ∈ c.files ∧ sourcePath t base r.source = .ok p := by
  obtain ⟨-, reports', hanswer', -, hsource⟩ := h
  cases hanswer.symm.trans hanswer'
  exact hsource r hr

theorem faithful (h : c.Tells t base files opinion) (hsees : c.Sees t config files) :
    c.Faithful t base files (fails opinion config t) := by
  refine ⟨h.1, fun reports hanswer p hp hasked => ?_⟩
  obtain ⟨octets, hread, -⟩ := hsees.read p hp
  obtain ⟨r, hr, hopinion⟩ := h.exists_report hsees hanswer hp hasked hread
  rw [hr, fails_eq hread, ← hopinion]
  rfl

end Call.Tells

namespace Workflow

/-- The path that a report is about, if it is about one. -/
def source? (t : FileTree) (base : Path) (r : Report) : Option Path :=
  (sourcePath t base r.source).toOption

theorem source?_eq_some {r : Report} : source? t base r = some p ↔ sourcePath t base r.source = .ok p := by
  rw [source?, ← Option.mem_def, mem_toOption]

theorem reportPlace?_eq (t : FileTree) (base : Path) (r : Report) :
    reportPlace? t base r = (source? t base r).bind fun p => t.target? p.text := by
  rw [reportPlace?, source?]
  cases sourcePath t base r.source <;> rfl

section sources

variable (h : c.Tells t base files opinion) (hsees : c.Sees t config files) (hanswer : c.answer = .ok reports)
include h hsees hanswer

/-- The one report on a file that was asked about. -/
theorem exists_filter_source (hp : p ∈ files) (hasked : p.text ∈ c.files) :
    ∃ r, r.errored = fails opinion config t p ∧
      reports.filter (fun r => source? t base r = some p) = [r] := by
  obtain ⟨octets, hread, -⟩ := hsees.read p hp
  obtain ⟨r, hr, hopinion⟩ := h.exists_report hsees hanswer hp hasked hread
  refine ⟨r, by rw [fails_eq hread, ← hopinion], ?_⟩
  rw [← hr]
  exact List.filter_congr fun r _ => decide_eq_decide.mpr source?_eq_some

/-- A report on a file is the only one. -/
theorem filter_source {r : Report} (hr : r ∈ reports) (hp : source? t base r = some p) :
    p ∈ files ∧ r.errored = fails opinion config t p ∧
      reports.filter (fun r => source? t base r = some p) = [r] := by
  obtain ⟨q, hq, hasked, hpath⟩ := h.exists_source hanswer hr
  cases (source?_eq_some.mp hp).symm.trans hpath
  obtain ⟨r', hfails, hfilter⟩ := exists_filter_source h hsees hanswer hq hasked
  have hmem : r ∈ reports.filter fun r => source? t base r = some p :=
    List.mem_filter.mpr ⟨hr, by simpa using hp⟩
  rw [hfilter, List.mem_singleton] at hmem
  cases hmem
  exact ⟨hq, hfails, hfilter⟩

/-- The failing reports are about the files that fail, one about each. -/
theorem perm_sources (hnodup : files.Nodup)
    (hall : ∀ p ∈ files, fails opinion config t p = true → p.text ∈ c.files) :
    ((reports.filter Report.errored).filterMap (source? t base)).Perm
      (files.filter (fails opinion config t)) := by
  refine perm_filterMap (hnodup.filter _) (fun p hp => ?_) fun r hr p hp => ?_
  · obtain ⟨hp, hfails⟩ := List.mem_filter.mp hp
    obtain ⟨r, herrored, hfilter⟩ := exists_filter_source h hsees hanswer hp (hall p hp hfails)
    refine ⟨r, ?_⟩
    rw [List.filter_comm, hfilter, List.filter_singleton, herrored.trans hfails, cond_true]
  · obtain ⟨hr, herrored⟩ := List.mem_filter.mp hr
    obtain ⟨hfile, hfails, -⟩ := filter_source h hsees hanswer hr hp
    exact List.mem_filter.mpr ⟨hfile, hfails.symm.trans herrored⟩

end sources

/-- The places of the files that fail. -/
def failingPlaces (opinion : Opinion) (config : Json.Fields) (t : FileTree) (files : List Path) :
    List Location :=
  (files.filter (fails opinion config t)).filterMap fun p => t.target? p.text

/-- The places of the failing reports. -/
def reportedPlaces (t : FileTree) (base : Path) (reports : List Report) : List Location :=
  (reports.filter Report.errored).filterMap (reportPlace? t base)

theorem perm_reportedPlaces (h : c.Tells t base files opinion) (hsees : c.Sees t config files)
    (hanswer : c.answer = .ok reports) (hnodup : files.Nodup)
    (hall : ∀ p ∈ files, fails opinion config t p = true → p.text ∈ c.files) :
    (reportedPlaces t base reports).Perm (failingPlaces opinion config t files) := by
  have hfun : reportPlace? t base = fun r => (source? t base r).bind fun p => t.target? p.text :=
    funext fun r => reportPlace?_eq t base r
  rw [reportedPlaces, hfun, ← List.filterMap_filterMap]
  exact (perm_sources h hsees hanswer hnodup hall).filterMap _

/-- A failing report is about a file that is there, and has its plan. -/
theorem about_reportedPlaces (h : c.Tells t base files opinion) (hsees : c.Sees t config files)
    (hanswer : c.answer = .ok reports) : List.Forall₂ (About base (planAt opinion config t) t)
      (reports.filter Report.errored) (reportedPlaces t base reports) := by
  have hsub : ∀ r ∈ reports.filter Report.errored, r ∈ reports := fun r hr => (List.mem_filter.mp hr).1
  rw [reportedPlaces]
  generalize reports.filter Report.errored = failing at hsub ⊢
  induction failing with
  | nil => exact .nil
  | cons r rest ih =>
    obtain ⟨hr, hrest⟩ := List.forall_mem_cons.mp hsub
    obtain ⟨p, hp, hasked, hpath⟩ := h.exists_source hanswer hr
    obtain ⟨octets, hread, -⟩ := hsees.read p hp
    obtain ⟨l, -, hn, htarget, -⟩ := write_of_read hread []
    obtain ⟨r', hone, hopinion⟩ := h.exists_report hsees hanswer hp hasked hread
    have hsame : r ∈ reports.filter fun r => sourcePath t base r.source = .ok p :=
      List.mem_filter.mpr ⟨hr, by simpa using hpath⟩
    rw [hone, List.mem_singleton] at hsame
    rw [List.filterMap_cons_some (by rw [reportPlace?_of_sourcePath hpath, htarget])]
    refine .cons ⟨p, octets, hpath, htarget, hn, ?_⟩ (ih hrest)
    rw [planAt, hn, hsame]
    dsimp only
    rw [← hopinion]

end Workflow
end LintDebt
