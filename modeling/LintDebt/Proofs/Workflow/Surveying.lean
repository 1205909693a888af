import LintDebt.Proofs.TextFile
import LintDebt.Proofs.Workflow.Examine

/-! # The two questions of an elimination

One question is asked before the files are annotated, once all has been read that it needs, and one
after. -/

namespace LintDebt.Workflow

open Job Query

variable {σ : Type} {l : Linter σ} {s : Settings} {base list : Path} {config : Json.Fields}
  {files : List Path} {o : Outcome} {w : World (σ × List Call)}

/-- Holds of what can stop a survey before its question. -/
inductive Unsurveyed (t : FileTree) (s : Settings) (base : Path) (e : Failure) : Prop where
  | config (h : LintConfig.load t (lintConfigPath s base).text = .error e)
  | patterns (h : (IgnoreList.read t (listPath s base) base s.patterns).result = .error e)

/-- What a survey has read once it succeeds. -/
structure Surveyed (t : FileTree) (s : Settings) (base : Path) (config : Json.Fields)
    (files : List Path) : Prop where
  config : LintConfig.load t (lintConfigPath s base).text = .ok config
  files : ∃ m : IgnoreList, (IgnoreList.read t (listPath s base) base s.patterns).result = .ok m ∧
    (Blanket.filter t m.files).result = .ok files

/-- A survey comes down to its question, unless something stops it before. -/
theorem ends_survey_of {w : World σ}
    {Q : Except Failure (Json.Fields × List Path × List Report) → FileTree → σ → Prop}
    (hstop : ∀ e, Unsurveyed w.tree s base e → Q (.error e) w.tree w.state)
    (hask : ∀ config files, Surveyed w.tree s base config files → ∀ log,
      (violations l config files (listPath s base)).Ends ⟨w.tree, w.state, log⟩ fun r t x =>
        Q (r.map fun reports => (config, files, reports)) t x) :
    (survey l s base).Ends w Q := by
  unfold survey readConfig readList
  simp only [bind_assoc]
  rw [ends_tree_bind, ends_ofExcept_bind]
  cases hconfig : LintConfig.load w.tree (lintConfigPath s base).text with
  | error e => exact hstop e (.config hconfig)
  | ok config =>
    dsimp only
    rw [ends_tree_bind]
    refine Ends.bind (ends_ofTraced.mpr ?_)
    cases hm : (IgnoreList.read w.tree (listPath s base) base s.patterns).result with
    | error e => exact hstop e (.patterns hm)
    | ok m =>
      intro log
      rw [ends_tree_bind]
      refine Ends.bind (ends_ofTraced.mpr ?_)
      -- What a pattern finds can be read, so no file is left undecided.
      have hfiles := Blanket.result_filter_of_read fun p hp => by
        obtain ⟨e, he, hp⟩ := IgnoreList.mem_files.mp hp
        exact exists_read_of_read hm e he p hp
      rw [hfiles]
      intro log
      refine Ends.bind ((hask config _ ⟨hconfig, m, hm, hfiles⟩ log).mono fun r t x h => ?_)
      cases r with
      | error e => exact h
      | ok reports => exact fun _ => h

/-- A survey by a linter whose calls are kept. -/
theorem ends_survey : (survey l.watched s base).Ends w fun r t x =>
    (∃ e, Unsurveyed w.tree s base e ∧ r = .error e ∧ t = w.tree ∧ x.2 = w.state.2) ∨
    ∃ config files, Surveyed w.tree s base config files ∧ ∃ calls answer, x.2 = w.state.2 ++ calls ∧
      Asking (listPath s base) config files w.tree calls answer t ∧
      r = answer.map fun reports => (config, files, reports) := by
  refine ends_survey_of (fun e he => Or.inl ⟨e, he, rfl, rfl, rfl⟩) fun config files h log =>
    ends_violations.mono fun r t x ⟨calls, hcalls, hask⟩ => ?_
  exact Or.inr ⟨config, files, h, calls, r, hcalls, hask, rfl⟩

theorem Surveyed.exists_read {t : FileTree} (h : Surveyed t s base config files) :
    ∃ octets, t.read (listPath s base).text = .ok octets := by
  obtain ⟨m, hm, -⟩ := h.files
  rw [IgnoreList.read] at hm
  obtain ⟨stream, hstream, -⟩ := Traced.result_bind_eq_ok.mp hm
  rw [Traced.result_ofExcept] at hstream
  obtain ⟨octets, hoctets, -⟩ := bind_eq_ok.mp hstream
  exact ⟨octets, TextFile.read_of_octets hoctets⟩

/-- No file is asked about that is suppressed as a whole. -/
theorem Surveyed.isOpen {t : FileTree} (h : Surveyed t s base config files) {p : Path}
    (hp : p ∈ files) : Blanket.isOpen t p = true := by
  obtain ⟨m, -, hfilter⟩ := h.files
  rw [Blanket.result_filter hfilter] at hp
  exact (List.mem_filter.mp hp).2

/-- Only one configuration and only some files can have been read. -/
theorem Surveyed.unique {t : FileTree} {config' : Json.Fields} {files' : List Path}
    (h : Surveyed t s base config files) (h' : Surveyed t s base config' files') :
    config = config' ∧ files = files' := by
  obtain ⟨m, hm, hfiles⟩ := h.files
  obtain ⟨m', hm', hfiles'⟩ := h'.files
  cases hm.symm.trans hm'
  exact ⟨Except.ok.inj (h.config.symm.trans h'.config), Except.ok.inj (hfiles.symm.trans hfiles')⟩

theorem Surveyed.not_unsurveyed {t : FileTree} {e : Failure} (h : Surveyed t s base config files) :
    ¬ Unsurveyed t s base e := by
  obtain ⟨m, hm, -⟩ := h.files
  intro hstop
  cases hstop with
  | config he => cases h.config.symm.trans he
  | patterns he => cases hm.symm.trans he

/-- Holds for a file that a pattern among these lines finds. -/
def Named (t : FileTree) (s : Settings) (base : Path) (lines : List String) (p : Path) : Prop :=
  ∃ line ∈ lines, IgnoreList.isRemark line = false ∧
    ∃ files, Glob.resolvePattern t base (s.patterns.expand line) = .ok files ∧ p ∈ files

/-- A survey can read all that it needs if the configuration and the list can be read and every pattern
can be looked up. It asks about the files that are named and not suppressed as a whole. -/
theorem exists_surveyed {t : FileTree} {lines : List String}
    (hconfig : LintConfig.load t (lintConfigPath s base).text = .ok config)
    (hlines : TextFile.lines t (listPath s base) = .ok lines)
    (hresolves : ∀ line ∈ lines, IgnoreList.isRemark line = false →
      ∃ files, Glob.resolvePattern t base (s.patterns.expand line) = .ok files) :
    ∃ files, Surveyed t s base config files ∧
      ∀ p, p ∈ files ↔ Blanket.isOpen t p = true ∧ Named t s base lines p := by
  obtain ⟨m, hm, hmem⟩ := IgnoreList.exists_read hlines hresolves
  have hnamed : ∀ p, p ∈ m.files ↔ Named t s base lines p := by
    intro p
    rw [IgnoreList.mem_files]
    constructor
    · rintro ⟨e, he, hp⟩
      obtain ⟨hline, hfinds⟩ := (hmem e).mp he
      exact ⟨e.pattern, hline, hfinds.noRemark, e.files, hfinds.files, hp⟩
    · rintro ⟨line, hline, hremark, files, hfiles, hp⟩
      exact ⟨⟨line, files⟩, (hmem _).mpr ⟨hline, hremark, hfiles, List.ne_nil_of_mem hp⟩, hp⟩
  refine ⟨m.files.filter (Blanket.isOpen t), ⟨hconfig, m, hm, ?_⟩, fun p => ?_⟩
  · refine Blanket.result_filter_of_read fun p hp => ?_
    obtain ⟨line, -, -, files, hfiles, hp⟩ := (hnamed p).mp hp
    exact Glob.exists_read_of_resolvePattern hfiles hp
  · rw [List.mem_filter, hnamed, and_comm]

/-- The last count is its question, and an answer that is missing adds a failure. -/
theorem ends_recount_of {w : World σ} {P : Except Failure (List Report) → FileTree → σ → Prop}
    (h : (violations l config files list).Ends w P) :
    (recount l config files list o).Ends w fun r t x => ∃ answer, P answer t x ∧ match answer with
      | .ok reports => r = .ok { o with errorsAfter := some (countErrors reports) }
      | .error (.tool e) => r = .ok (o.addFailure e.message)
      | .error (.fault f) => r = .error (.fault f) := by
  rw [recount, ends_observe_bind]
  refine h.mono fun answer t x hP => ?_
  rcases answer with (e | f) | reports <;> exact ⟨_, hP, rfl⟩

theorem ends_recount : (recount l.watched config files list o).Ends w fun r t x =>
    ∃ calls answer, x.2 = w.state.2 ++ calls ∧ Asking list config files w.tree calls answer t ∧
      (∀ o', r = .ok o' →
        (∃ n, o' = { o with errorsAfter := some n }) ∨ ∃ message, o' = o.addFailure message) ∧
      ∀ reports, answer = .ok reports →
        r = .ok { o with errorsAfter := some (countErrors reports) } := by
  refine (ends_recount_of ends_violations).mono fun r t x ⟨answer, ⟨calls, hcalls, hask⟩, hr⟩ =>
    ⟨calls, answer, hcalls, hask, ?_⟩
  rcases answer with (e | f) | reports
  · obtain rfl := hr
    exact ⟨fun o' ho' => Or.inr ⟨e.message, (Except.ok.inj ho').symm⟩, by simp⟩
  · obtain rfl := hr
    exact ⟨by simp, by simp⟩
  · obtain rfl := hr
    exact ⟨fun o' ho' => Or.inl ⟨countErrors reports, (Except.ok.inj ho').symm⟩, by simp⟩

end LintDebt.Workflow
