import LintDebt.Proofs.Workflow.Examine

/-! # The course of a compression

A compression reads what it needs, examines pattern after pattern, and finishes: it writes the list,
asks once more about the files that are left, and measures the list. There is a rule for each of these
parts, `ends_compress_of`, `ends_examine` and `ends_finish`. What is left to say of a property of whole
runs is that it holds where a run stops, and what a question and its answer add. -/

namespace LintDebt.Workflow

open Job Query

/-- The outcome of a compression until the first pattern is examined. -/
def begun (stats : Option Counts) : Outcome :=
  { Outcome.start "compress" with statsBefore := stats }

/-- Holds of what can stop a compression before the first pattern is examined. -/
inductive Unread (t : FileTree) (s : Settings) (base : Path) (e : Failure) : Prop where
  | stats (h : TextFile.measure t (listPath s base) = .error e)
  | config (h : LintConfig.load t (lintConfigPath s base).text = .error e)
  | lines (h : TextFile.lines t (listPath s base) = .error e)
  | patterns (h : (IgnoreList.read t (listPath s base) base s.patterns).result = .error e)

/-- What a compression has read when the first pattern is examined. -/
structure Prepared (t : FileTree) (s : Settings) (base : Path) (config : Json.Fields)
    (lines : List String) (entries : IgnoreList) : Prop where
  loaded : LintConfig.load t (lintConfigPath s base).text = .ok config
  found : TextFile.lines t (listPath s base) = .ok lines
  resolves : ∀ line ∈ lines, IgnoreList.isRemark line = false →
    ∃ files, Glob.resolvePattern t base (s.patterns.expand line) = .ok files
  opened : openEntries t s base = .ok entries

/-- The outcome once the list is written. -/
def Examined.rewritten (x : Examined) : Outcome :=
  { x.outcome with
    entriesKept := some x.kept.length
    errorsBefore := some (countErrors (x.reports.map Prod.snd)) }

/-- The outcome once the last question is answered. -/
def Examined.recounted (x : Examined) (remaining : List Report) : Outcome :=
  { x.rewritten with errorsAfter := some (countErrors remaining) }

/-- The outcome of a compression that went through all steps. -/
def Examined.finished (x : Examined) (remaining : List Report) (stats : TextFile.Stats) : Outcome :=
  { x.recounted remaining with statsAfter := some stats.counts }

@[simp] theorem Examined.status_finished (x : Examined) (remaining : List Report)
    (stats : TextFile.Stats) : (x.finished remaining stats).status = x.outcome.status := rfl

@[simp] theorem Examined.failures_finished (x : Examined) (remaining : List Report)
    (stats : TextFile.Stats) : (x.finished remaining stats).failures = x.outcome.failures := rfl

variable {σ : Type} {l : Linter σ} {s : Settings} {base : Path} {config : Json.Fields}
  {lines : List String} {x : Examined} {w : World σ} {Q : Except Failure Outcome → FileTree → σ → Prop}

/-- What a compression does when all patterns were examined. -/
def finish (l : Linter σ) (s : Settings) (base : Path) (config : Json.Fields) (lines : List String)
    (x : Examined) : Job σ Outcome :=
  let list := listPath s base
  let doing := s!"compressing {list}"
  stage x.outcome doing (writeList list (x.kept.renderOver lines)) fun _ =>
  stage x.rewritten doing (violations l config x.kept.files list) fun remaining =>
  stage (x.recounted remaining) doing (measure list) fun stats =>
  return x.finished remaining stats

theorem compress_eq : compress l s base =
    let list := listPath s base
    let doing := s!"compressing {list}"
    stage (begun none) doing (measure list) fun stats =>
    let o := begun (some stats.counts)
    stage o doing (readConfig s base) fun config =>
    stage o doing (do Job.ofExcept (TextFile.lines (← Job.tree) list)) fun lines =>
    stage o doing (readList s base) fun m =>
    stage o doing (do Job.ofTraced (m.withoutCovered (← Job.tree))) fun m =>
    examine l s base config doing (finish l s base config lines) ⟨o, [], []⟩ m := rfl

theorem ends_compress_of
    (hstop : ∀ stats e, Unread w.tree s base e → Settled (begun stats) Q e w.tree w.state)
    (hrun : ∀ stats config lines entries, Prepared w.tree s base config lines entries → ∀ log,
      (examine l s base config s!"compressing {listPath s base}" (finish l s base config lines)
        ⟨begun stats, [], []⟩ entries).Ends ⟨w.tree, w.state, log⟩ Q) :
    (compress l s base).Ends w Q := by
  rw [compress_eq]
  refine ends_stage_reading (fun e he => hstop _ e (.stats he)) fun stats _ _ => ?_
  refine ends_stage_reading (fun e he => hstop _ e (.config he)) fun config hconfig _ => ?_
  refine ends_stage_reading (fun e he => hstop _ e (.lines he)) fun lines hlines _ => ?_
  refine ends_stage_traced (fun e he => hstop _ e (.patterns he)) fun m hm _ => ?_
  refine ends_stage_traced (fun e he => ?_) fun entries hentries log => ?_
  · obtain ⟨entries, hentries⟩ := IgnoreList.exists_withoutCovered (exists_read_of_read hm)
    cases hentries.symm.trans he
  refine hrun _ config lines entries ⟨hconfig, hlines, ?_, ?_⟩ log
  · exact IgnoreList.resolves_of_readLines (IgnoreList.readLines_of_read hm hlines)
  · simp only [openEntries, bind, Except.bind, hm, hentries]

/-- The last steps, whatever is known of the last question. -/
theorem ends_finish_of
    (hstop : ∀ e, TextFile.write w.tree (listPath s base) (x.kept.renderOver lines) = .error e →
      Settled x.outcome Q e w.tree w.state)
    (hlast : ∀ t, w.tree.write (listPath s base).text (Utf8.encode (x.kept.renderOver lines)) = .ok t →
      ∀ log, (violations l config x.kept.files (listPath s base)).Ends ⟨t, w.state, log⟩
        fun r t' y => match r with
          | .error e => Settled x.rewritten Q e t' y
          | .ok remaining =>
            (∀ e, TextFile.measure t' (listPath s base) = .error e →
              Settled (x.recounted remaining) Q e t' y) ∧
            ∀ stats, TextFile.measure t' (listPath s base) = .ok stats →
              Q (.ok (x.finished remaining stats)) t' y) :
    (finish l s base config lines x).Ends w Q := by
  rw [finish]
  refine ends_stage_changeTree hstop fun t hwrite log => ?_
  refine ends_stage ((hlast t (TextFile.write_eq_ok.mp hwrite) log).mono fun r t' y h => ?_)
  rcases r with e | remaining
  · exact h
  · intro log
    exact ends_stage_reading h.1 fun stats hstats _ => h.2 stats hstats

/-- The last steps, of which the last question is one. -/
theorem ends_finish {w : World (σ × List Call)}
    {Q : Except Failure Outcome → FileTree → σ × List Call → Prop}
    (hstop : ∀ e, TextFile.write w.tree (listPath s base) (x.kept.renderOver lines) = .error e →
      Settled x.outcome Q e w.tree w.state)
    (hlost : ∀ t, w.tree.write (listPath s base).text (Utf8.encode (x.kept.renderOver lines)) = .ok t →
      ∀ asked e t', Asking (listPath s base) config x.kept.files t asked (.error e) t' →
        ∀ state, Settled x.rewritten Q e t' (state, w.state.2 ++ asked))
    (hlast : ∀ t, w.tree.write (listPath s base).text (Utf8.encode (x.kept.renderOver lines)) = .ok t →
      ∀ asked remaining t', Asking (listPath s base) config x.kept.files t asked (.ok remaining) t' →
        ∀ state, (∀ e, TextFile.measure t' (listPath s base) = .error e →
            Settled (x.recounted remaining) Q e t' (state, w.state.2 ++ asked)) ∧
          ∀ stats, TextFile.measure t' (listPath s base) = .ok stats →
            Q (.ok (x.finished remaining stats)) t' (state, w.state.2 ++ asked)) :
    (finish l.watched s base config lines x).Ends w Q := by
  refine ends_finish_of hstop fun t hwrite log => ends_violations.mono fun r t' y h => ?_
  obtain ⟨asked, hasked, hask⟩ := h
  obtain ⟨state, calls⟩ := y
  obtain rfl : calls = w.state.2 ++ asked := hasked
  rcases r with e | remaining
  · exact hlost t hwrite asked e t' hask state
  · exact hlast t hwrite asked remaining t' hask state

end LintDebt.Workflow
