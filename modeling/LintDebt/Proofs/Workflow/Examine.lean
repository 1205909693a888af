import LintDebt.Proofs.Glob.Shapes
import LintDebt.Proofs.IgnoreList
import LintDebt.Proofs.Query.Asking
import LintDebt.Proofs.Workflow.Stage

/-! # How patterns are examined

The patterns to examine are those of the list that find a file which is not suppressed as a whole
(`mem_openEntries`). Pattern after pattern is one question to the linter and one verdict.
`ends_examine` is the induction over the patterns: an invariant that every verdict keeps holds when
the last pattern was examined, and nothing else of the loop is needed afterwards. -/

namespace LintDebt.Workflow

open Job Query

variable {σ : Type} {l : Linter σ} {s : Settings} {base : Path} {config : Json.Fields}
  {e : IgnoreList.Entry} {w : World (σ × List Call)}

/-- The patterns of the list with the files that are not suppressed as a whole. -/
def openEntries (t : FileTree) (s : Settings) (base : Path) : Except Failure IgnoreList := do
  let m ← (IgnoreList.read t (listPath s base) base s.patterns).result
  (m.withoutCovered t).result

variable {t : FileTree} {entries : IgnoreList} {lines : List String}

theorem files_ne_nil_of_openEntries (h : openEntries t s base = .ok entries) :
    ∀ e ∈ entries, e.files ≠ [] := by
  rw [openEntries] at h
  rcases hm : (IgnoreList.read t (listPath s base) base s.patterns).result with f | m
  · rw [hm] at h
    cases h
  rw [hm] at h
  rw [IgnoreList.result_withoutCovered h]
  intro e he
  simpa using (List.mem_filter.mp he).2

/-- The list that was read from these lines, before any file is left out. -/
theorem exists_of_openEntries (h : openEntries t s base = .ok entries)
    (hlines : TextFile.lines t (listPath s base) = .ok lines) :
    ∃ m : IgnoreList, (m.map IgnoreList.Entry.pattern).Nodup ∧
      (∀ e, e ∈ m ↔ e.pattern ∈ lines ∧ IgnoreList.Finds t base s.patterns e) ∧
      entries = (m.map fun e => { e with files := e.files.filter (Blanket.isOpen t) }).filter
        (!·.files.isEmpty) := by
  rw [openEntries] at h
  rcases hm : (IgnoreList.read t (listPath s base) base s.patterns).result with f | m
  · rw [hm] at h
    cases h
  rw [hm] at h
  have hread := IgnoreList.readLines_of_read hm hlines
  obtain ⟨hnodup, hmem⟩ := IgnoreList.result_readLines hread (by simp) (by simp)
  exact ⟨m, hnodup, fun e => by simpa using hmem e, IgnoreList.result_withoutCovered h⟩

/-- Each pattern is examined once, with its open files. -/
theorem mem_openEntries (h : openEntries t s base = .ok entries)
    (hlines : TextFile.lines t (listPath s base) = .ok lines) :
    (entries.map IgnoreList.Entry.pattern).Nodup ∧ ∀ e, e ∈ entries ↔
      e.pattern ∈ lines ∧ IgnoreList.isRemark e.pattern = false ∧ e.files ≠ [] ∧
        ∃ files, Glob.resolvePattern t base (s.patterns.expand e.pattern) = .ok files ∧
          e.files = files.filter (Blanket.isOpen t) := by
  obtain ⟨m, hnodup, hmem, rfl⟩ := exists_of_openEntries h hlines
  refine ⟨?_, fun e => ?_⟩
  · have hsub := (List.filter_sublist (p := fun e : IgnoreList.Entry => !e.files.isEmpty)
      (l := m.map fun e => { e with files := e.files.filter (Blanket.isOpen t) })).map
        IgnoreList.Entry.pattern
    rw [List.map_map] at hsub
    exact hnodup.sublist hsub
  · rw [List.mem_filter, List.mem_map]
    constructor
    · rintro ⟨⟨e, he, rfl⟩, hne⟩
      obtain ⟨hline, hfinds⟩ := (hmem e).mp he
      exact ⟨hline, hfinds.noRemark, by simpa using hne, e.files, hfinds.files, rfl⟩
    · rintro ⟨hline, hremark, hne, files, hfiles, heq⟩
      have hfiles' : files ≠ [] := by
        rintro rfl
        exact hne heq
      refine ⟨⟨⟨e.pattern, files⟩, (hmem _).mpr ⟨hline, hremark, hfiles, hfiles'⟩, ?_⟩, by simpa using hne⟩
      rw [← heq]

/-- Each file that a pattern of the list finds can be read. -/
theorem exists_read_of_read {m : IgnoreList}
    (h : (IgnoreList.read t (listPath s base) base s.patterns).result = .ok m) :
    ∀ e ∈ m, ∀ p ∈ e.files, ∃ octets, t.read p.text = .ok octets := by
  obtain ⟨lines, hlines⟩ := IgnoreList.exists_lines_of_read h
  obtain ⟨-, hmem⟩ := IgnoreList.result_readLines (IgnoreList.readLines_of_read h hlines)
    (by simp) (by simp)
  intro e he p hp
  obtain ⟨hnil, -⟩ | ⟨-, hfinds⟩ := (hmem e).mp he
  exact Glob.exists_read_of_resolvePattern hfinds.files hp

/-- The patterns can be examined if each of them can be looked up. -/
theorem exists_openEntries (hlines : TextFile.lines t (listPath s base) = .ok lines)
    (h : ∀ line ∈ lines, IgnoreList.isRemark line = false →
      ∃ files, Glob.resolvePattern t base (s.patterns.expand line) = .ok files) :
    ∃ entries, openEntries t s base = .ok entries := by
  obtain ⟨m, hm, -⟩ := IgnoreList.exists_read hlines h
  obtain ⟨entries, hentries⟩ := IgnoreList.exists_withoutCovered (exists_read_of_read hm)
  refine ⟨entries, ?_⟩
  simp only [openEntries, bind, Except.bind, hm, hentries]

/-- What a verdict says about the files of a pattern: the reports, each with the path it is about,
and the files that one of the failing reports is about. -/
structure Judged (t : FileTree) (base : Path) (e : IgnoreList.Entry) (reports : List Report)
    (v : Verdict) : Prop where
  located : (reports.mapM fun r => do return (← sourcePath t base r.source, r)) = .ok v.reports
  errored : ∃ errored, erroredSources t base reports = .ok errored ∧
    v.failing = e.files.filter (· ∈ errored)

/-- A verdict is its question and what the reports come to. It fails if the question does, or if the
linter reported on something that is no path. -/
theorem ends_judge_of {P : Except Failure (List Report) → FileTree → σ × List Call → Prop}
    (h : (violations l.watched config e.files (listPath s base)).Ends w P) :
    (judge l.watched s base config e).Ends w fun r t x => ∃ answer, P answer t x ∧ match r with
      | .ok v => ∃ reports, answer = .ok reports ∧ Judged t base e reports v
      | .error f => answer = .error f ∨ ∃ reports, answer = .ok reports ∧
        ∃ r ∈ reports, ∃ g, sourcePath t base r.source = .error g ∧ f = .fault g := by
  rw [judge]
  refine Ends.bind (h.mono fun answer t x hP => ?_)
  rcases answer with f | reports
  · exact ⟨_, hP, Or.inl rfl⟩
  intro log
  rw [ends_tree_bind, ends_ofExcept_bind]
  split
  · next located hlocated =>
    rw [ends_ofExcept_bind]
    split
    · next errored herrored =>
      rw [liftFault_eq_ok] at hlocated herrored
      exact ⟨_, hP, reports, rfl, hlocated, errored, herrored, rfl⟩
    · next f herrored =>
      obtain ⟨g, hg, rfl⟩ := liftFault_eq_error.mp herrored
      obtain ⟨r, hr, hsource⟩ := exists_of_mapM_error hg
      exact ⟨_, hP, Or.inr ⟨reports, rfl, r, (List.mem_filter.mp hr).1, g, hsource, rfl⟩⟩
  · next f hlocated =>
    obtain ⟨g, hg, rfl⟩ := liftFault_eq_error.mp hlocated
    obtain ⟨r, hr, hfails⟩ := exists_of_mapM_error hg
    rcases bind_eq_error.mp hfails with hsource | ⟨_, -, hno⟩
    · exact ⟨_, hP, Or.inr ⟨reports, rfl, r, hr, g, hsource, rfl⟩⟩
    · cases hno

theorem ends_judge : (judge l.watched s base config e).Ends w fun r t x =>
    ∃ calls answer, x.2 = w.state.2 ++ calls ∧
      Asking (listPath s base) config e.files w.tree calls answer t ∧
      ∀ v, r = .ok v → ∃ reports, answer = .ok reports ∧ Judged t base e reports v := by
  refine (ends_judge_of ends_violations).mono
    fun r t x ⟨answer, ⟨calls, hcalls, hask⟩, hr⟩ => ⟨calls, answer, hcalls, hask, ?_⟩
  rintro v rfl
  exact hr

/-- The loop over the patterns, whatever is known of a single verdict. -/
theorem ends_examine_of {doing : String} {next : Examined → Job (σ × List Call) Outcome}
    {Q : Except Failure Outcome → FileTree → σ × List Call → Prop}
    (I : List IgnoreList.Entry → Examined → FileTree → List Call → Prop)
    (entries : List IgnoreList.Entry)
    (hjudge : ∀ done e rest, entries = done ++ e :: rest → ∀ x w, I done x w.tree w.state.2 →
      (judge l.watched s base config e).Ends w fun r t y => match r with
        | .ok v => I (done ++ [e]) (x.add e v) t y.2
        | .error f => Settled x.outcome Q f t y)
    (hnext : ∀ x w, I entries x w.tree w.state.2 → (next x).Ends w Q)
    (x : Examined) (w : World (σ × List Call)) (h : I [] x w.tree w.state.2) :
    (examine l.watched s base config doing next x entries).Ends w Q := by
  -- The induction is on the patterns that are left, with those that were examined before general.
  suffices hrest : ∀ rest done x w, entries = done ++ rest → I done x w.tree w.state.2 →
      (examine l.watched s base config doing next x rest).Ends w Q from hrest entries [] x w rfl h
  intro rest
  induction rest with
  | nil =>
    intro done x w hdone h
    rw [List.append_nil] at hdone
    exact hnext x w (hdone ▸ h)
  | cons e rest ih =>
    intro done x w hdone h
    rw [examine]
    refine ends_stage ((hjudge done e rest hdone x w h).mono fun r t y hr => ?_)
    rcases r with f | v
    · exact hr
    have hrest : ∀ log, (examine l.watched s base config doing next (x.add e v) rest).Ends
        ⟨t, y, log⟩ Q :=
      fun log => ih (done ++ [e]) (x.add e v) _ (by rw [hdone, List.append_cons]) hr
    intro log
    dsimp only
    split
    · rw [ends_note_bind]
      exact hrest _
    · exact hrest _

/-- An invariant of the verdicts is one of the loop. -/
theorem ends_examine {doing : String} {next : Examined → Job (σ × List Call) Outcome}
    {Q : Except Failure Outcome → FileTree → σ × List Call → Prop}
    (I : List IgnoreList.Entry → Examined → FileTree → List Call → Prop)
    (entries : List IgnoreList.Entry)
    (hfail : ∀ done, ∀ e ∈ entries, ∀ x t calls, I done x t calls → ∀ asked answer t',
      Asking (listPath s base) config e.files t asked answer t' →
      ∀ f s, Settled x.outcome Q f t' (s, calls ++ asked))
    (hstep : ∀ done, ∀ e ∈ entries, ∀ x t calls, I done x t calls → ∀ asked reports t' v,
      Asking (listPath s base) config e.files t asked (.ok reports) t' → Judged t' base e reports v →
      I (done ++ [e]) (x.add e v) t' (calls ++ asked))
    (hnext : ∀ x w, I entries x w.tree w.state.2 → (next x).Ends w Q)
    (x : Examined) (w : World (σ × List Call)) (h : I [] x w.tree w.state.2) :
    (examine l.watched s base config doing next x entries).Ends w Q := by
  refine ends_examine_of I entries (fun done e rest hentries x w h => ?_) hnext x w h
  have he : e ∈ entries := by simp [hentries]
  refine ends_judge.mono fun r t y ⟨asked, answer, hcalls, hask, hjudged⟩ => ?_
  obtain ⟨state, calls⟩ := y
  obtain rfl : calls = w.state.2 ++ asked := hcalls
  rcases r with f | v
  · exact hfail done e he x w.tree w.state.2 h asked answer t hask f state
  · obtain ⟨reports, rfl, hv⟩ := hjudged v rfl
    exact hstep done e he x w.tree w.state.2 h asked reports t v hask hv

end LintDebt.Workflow
