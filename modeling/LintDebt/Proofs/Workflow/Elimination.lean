import LintDebt.Proofs.Query.Occupied
import LintDebt.Proofs.Workflow.Eliminating
import LintDebt.Proofs.Workflow.Sample

/-! # What an elimination comes to

The list is emptied exactly if the survey succeeded and the file of every failing report got its
comments; a failure after that is counted, but takes nothing back. All of it needs a list that is
found again once it was hidden: if the way to it leads through what stood at its hidden path, the
first question ends the run and leaves no list where it was. -/

namespace LintDebt

open FileTree Query

theorem Call.LeavesAlone.of_quiet {c : Call} {list hidden : Path} (h : c.after = c.before) :
    c.LeavesAlone list hidden := by
  refine ⟨?_, ?_, ?_⟩ <;> rw [h]
  exact id

namespace Workflow

open Job

/-- The words for an annotation that failed. -/
def failureText : Except Failure Int → Option String
  | .ok _ => none
  | .error e => some e.message

/-- Holds of an outcome that was not aborted and lists a failure exactly if it is not `ok`. -/
structure Fair (o : Outcome) : Prop where
  ok_iff : o.status = .ok ↔ o.failures = []
  goesOn : o.status ≠ .aborted

variable {o : Outcome} {results : List (Except Failure Int)}

theorem Fair.addFailure (h : Fair o) (message : String) : Fair (o.addFailure message) := by
  have hgoesOn := h.goesOn
  refine ⟨?_, ?_⟩ <;> cases hs : o.status <;> simp [Outcome.addFailure, hs] at hgoesOn ⊢

theorem Fair.record (h : Fair o) (result : Except Failure Int) : Fair (record o result) := by
  cases result with
  | ok n => exact ⟨h.ok_iff, h.goesOn⟩
  | error e => exact h.addFailure e.message

theorem Fair.status_eq (h : Fair o) : o.status = if o.failures = [] then .ok else .partly := by
  split
  · next hnone => exact h.ok_iff.mpr hnone
  · next hsome =>
    have hgoesOn := h.goesOn
    cases hs : o.status with
    | ok => exact absurd (h.ok_iff.mp hs) hsome
    | partly => rfl
    | aborted => exact absurd hs hgoesOn

/-- What is counted and listed for annotations. -/
theorem foldl_record (h : Fair o) (results : List (Except Failure Int)) :
    Fair (results.foldl record o) ∧
    (results.foldl record o).filesProcessed = o.filesProcessed + results.countP Except.isOk ∧
    (results.foldl record o).failures = o.failures ++ results.filterMap failureText := by
  induction results generalizing o with
  | nil => exact ⟨h, by simp, by simp⟩
  | cons result rest ih =>
    obtain ⟨hfair, hprocessed, hfailures⟩ := ih (h.record result)
    refine ⟨hfair, ?_, ?_⟩
    · rw [List.foldl_cons, hprocessed]
      cases result with
      | ok n =>
        simp only [Workflow.record, List.countP_cons, Except.isOk, Except.toBool]
        push_cast
        omega
      | error e => simp [Workflow.record, Outcome.addFailure, Except.isOk, Except.toBool]
    · rw [List.foldl_cons, hfailures]
      cases result with
      | ok n =>
        rw [List.filterMap_cons_none rfl]
        rfl
      | error e => simp [Workflow.record, Outcome.addFailure, failureText]

theorem filterMap_failureText : results.filterMap failureText = [] ↔
    results.all Except.isOk = true := by
  rw [List.filterMap_eq_nil_iff, List.all_eq_true]
  refine forall₂_congr fun result _ => ?_
  cases result <;> simp [failureText, Except.isOk, Except.toBool]

theorem Annotations.length_eq {σ : Type} {base : Path} {style : Suppression.Style} {t t' : FileTree}
    {reports : List Report} (h : Annotations σ base style t reports results t') :
    results.length = reports.length := by
  induction h with
  | nil => rfl
  | cons _ _ ih => rw [List.length_cons, List.length_cons, ih]

variable {σ : Type} {l : Linter σ} {s : Settings} {base hidden list : Path}
  {style : Suppression.Style} {octets : List UInt8} {t t' t₁ t₂ : FileTree} {calls asked : List Call}
  {config : Json.Fields} {files : List Path} {r : Except Failure (List Report)} {o' : Outcome}
  {reports : List Report}

theorem fair_assessed (reports : List Report) : Fair (assessed reports) := ⟨by simp, by simp⟩

/-- What is counted and listed once the files of the failing reports were annotated. -/
theorem Worked.counts (h : Worked σ base style reports t results o t') :
    Fair o ∧ o.filesProcessed = results.countP Except.isOk ∧
      o.failures = results.filterMap failureText := by
  obtain ⟨hfair, hprocessed, hfailures⟩ := foldl_record (fair_assessed reports) results
  rw [h.outcome]
  exact ⟨hfair, by simpa using hprocessed, by simpa using hfailures⟩

theorem Worked.failures_eq_nil (h : Worked σ base style reports t results o t') :
    o.failures = [] ↔ results.all Except.isOk = true := by
  rw [h.counts.2.2, filterMap_failureText]

/-- The last question adds the count of the errors that are left, or one failure. -/
theorem Worked.recounted (h : Worked σ base style reports t results o t')
    (ho' : (∃ n, o' = { o with errorsAfter := some n }) ∨ ∃ message, o' = o.addFailure message) :
    Fair o' ∧ o'.filesProcessed = results.countP Except.isOk ∧
      ∃ late, o'.failures = results.filterMap failureText ++ late ∧ late.length ≤ 1 := by
  obtain ⟨hfair, hprocessed, hfailures⟩ := h.counts
  rcases ho' with ⟨n, rfl⟩ | ⟨message, rfl⟩
  · exact ⟨⟨hfair.ok_iff, hfair.goesOn⟩, hprocessed, [], by simpa using hfailures, by simp⟩
  · exact ⟨hfair.addFailure message, hprocessed, [message], by simp [Outcome.addFailure, hfailures],
      by simp⟩

/-- A question when nothing is at the hidden path, or nothing is asked. -/
theorem standing_of_asking (hask : Asking list config files t asked r t')
    (h : Standing t list octets) (habsent : files ≠ [] → t.isPresent hidden.text = false)
    (hhidden : hiddenPath list = .ok hidden) (hquiet : ∀ c ∈ asked, c.after = c.before) :
    Standing t' list octets ∧ (files = [] → asked = []) := by
  by_cases hfiles : files = []
  · subst hfiles
    obtain ⟨hnone, -, rfl⟩ := hask.of_nil
    exact ⟨h, fun _ => hnone⟩
  · have hplace := (hask.inPlace ⟨h, habsent hfiles⟩ hhidden fun c hc => .of_quiet (hquiet c hc)).1
    exact ⟨hplace.toStanding, fun he => absurd he hfiles⟩

/-- What an elimination comes to that started from `t`, left `t'` and ended with an outcome, after a
survey that ended so and left `t₁`. -/
structure Elimination (base list hidden : Path) (style : Suppression.Style)
    (octets : List UInt8) (t t' : FileTree) (calls : List Call)
    (surveyed : Except Failure (Json.Fields × List Path × List Report)) (t₁ : FileTree)
    (o : Outcome) : Prop where
  ok_iff : o.status = .ok ↔ o.failures = []
  aborted_iff : o.status = .aborted ↔ ∃ e, surveyed = .error e
  present_iff : t'.isPresent list.text = true ↔ calls = [] ∨ Clear t list hidden
  aborted : ∀ e, surveyed = .error e → calls = [] ∧ t' = t ∨
    calls ≠ [] ∧ (Clear t list hidden → t' = t.vacate hidden.text ∧ Standing t' list octets)
  annotated : ∀ config files reports, surveyed = .ok (config, files, reports) → ∃ results t₂,
    Annotations Unit base style t₁ (reports.filter Report.errored) results t₂ ∧
      Standing t' list (if results.all Except.isOk then [] else octets) ∧
      o.filesProcessed = results.countP Except.isOk ∧
      o.filesProcessed + results.countP (!·.isOk) = (reports.filter Report.errored).length ∧
      ∃ late, o.failures = results.filterMap failureText ++ late ∧ late.length ≤ 1

theorem Standing.isPresent (h : Standing t list octets) : t.isPresent list.text = true :=
  isPresent_eq_true.mpr ⟨_, h.list⟩

/-- A run that stops before anything was annotated. -/
theorem Elimination.of_error {e : ToolError} (h : Standing t list octets)
    (hfirst : calls = [] ∧ t' = t ∨ ∃ c, calls = [c] ∧
      (Clear t list hidden → t' = t.vacate hidden.text ∧ Standing t' list octets) ∧
      (¬ Clear t list hidden → t'.isPresent list.text = false)) :
    Elimination base list hidden style octets t t' calls (.error (.tool e)) t₁
      (o.abort e.message) := by
  refine ⟨by simp [Outcome.abort], by simp [Outcome.abort], ?_, ?_, nofun⟩
  · rcases hfirst with ⟨rfl, rfl⟩ | ⟨c, rfl, hclear, hnot⟩
    · simp [Standing.isPresent h]
    · by_cases hc : Clear t list hidden
      · simp [hc, Standing.isPresent (hclear hc).2]
      · simp [hc, hnot hc]
  · rintro e' -
    rcases hfirst with ⟨rfl, rfl⟩ | ⟨c, rfl, hclear, -⟩
    · exact Or.inl ⟨rfl, rfl⟩
    · exact Or.inr ⟨by simp, hclear⟩

/-- A stage that stops before anything was annotated, whatever it stops at. -/
theorem settled_elimination {e : Failure} {state : σ} (h : Standing t list octets)
    (hfirst : (∀ c ∈ calls, c.after = c.before ∧ c.Spares base list) →
      calls = [] ∧ t' = t ∨ ∃ c, calls = [c] ∧
        (Clear t list hidden → t' = t.vacate hidden.text ∧ Standing t' list octets) ∧
        (¬ Clear t list hidden → t'.isPresent list.text = false)) :
    Settled o (fun r t' x => (∀ c ∈ x.2, c.after = c.before ∧ c.Spares base list) → ∀ o, r = .ok o →
      Elimination base list hidden style octets t t' x.2 (.error e) t₁ o) e t' (state, calls) := by
  cases e with
  | fault f => exact fun _ o ho => by cases ho
  | tool e =>
    intro hquiet o ho
    cases ho
    exact .of_error h (hfirst hquiet)

/-- A run that annotates files, with the count of the errors that are left or without it. -/
theorem Elimination.of_ok (hcalls : calls = [] ∨ Clear t list hidden)
    (h : Worked σ base style reports t₁ results o t₂)
    (hstanding : Standing t' list (if results.all Except.isOk then [] else octets))
    (ho' : (∃ n, o' = { o with errorsAfter := some n }) ∨ ∃ message, o' = o.addFailure message) :
    Elimination base list hidden style octets t t' calls (.ok (config, files, reports)) t₁ o' := by
  obtain ⟨hfair, hprocessed, hlate⟩ := h.recounted ho'
  refine ⟨hfair.ok_iff, ?_, ?_, fun e he => ?_, ?_⟩
  · simp [hfair.goesOn]
  · simp [Standing.isPresent hstanding, hcalls]
  · cases he
  · rintro _ _ _ heq
    cases heq
    refine ⟨results, t₂, h.annotations.map fun _ => (), hstanding, hprocessed, ?_, hlate⟩
    have hlen : (reports.filter Report.errored).length =
        results.countP Except.isOk + results.countP (!·.isOk) := by
      rw [← h.annotations.length_eq]
      simpa using List.length_eq_countP_add_countP Except.isOk (l := results)
    rw [hprocessed, hlen]
    push_cast
    rfl

/-- The first question of an elimination, and the list after it. -/
theorem first_of_asking (hask : Asking list config files t asked r t')
    (h : Standing t list octets) (hhidden : hiddenPath list = .ok hidden)
    (hquiet : ∀ c ∈ asked, c.after = c.before) :
    asked = [] ∧ t' = t ∨ ∃ c, asked = [c] ∧
      (Clear t list hidden → t' = t.vacate hidden.text ∧ Standing t' list octets) ∧
      (¬ Clear t list hidden → t'.isPresent list.text = false) := by
  rcases hask.first h.tree h.list hhidden hquiet with hnone | ⟨c, hc, hclear, hnot⟩
  · exact Or.inl hnone
  · refine Or.inr ⟨c, hc, fun hway => ?_, fun hway => (hnot hway).2⟩
    exact ⟨(hclear hway).1, (hclear hway).2.1.toStanding⟩

/-- The tree in which the files are annotated. -/
theorem ready_of_asking {reports : List Report} (hask : Asking list config files t asked (.ok reports) t')
    (h : Standing t list octets) (hhidden : hiddenPath list = .ok hidden)
    (hquiet : ∀ c ∈ asked, c.after = c.before) :
    Standing t' list octets ∧ (files ≠ [] → t'.isPresent hidden.text = false) ∧
      (asked = [] ∧ files = [] ∨ asked ≠ [] ∧ Clear t list hidden) ∧
      (∀ r ∈ reports, ∃ c ∈ asked, c.answer = .ok reports ∧ SameWays c.after t') := by
  rcases hask.answer with ⟨rfl, rfl, rfl, rfl⟩ | ⟨c, rfl, hfiles, hanswer⟩
  · exact ⟨h, fun hne => absurd rfl hne, Or.inl ⟨rfl, rfl⟩, by simp⟩
  rcases hask.first h.tree h.list hhidden hquiet with ⟨hnone, -⟩ | ⟨c', hc', hclear, hnot⟩
  · cases hnone
  obtain rfl : c = c' := by simpa using hc'
  have hway : Clear t list hidden := by
    refine Decidable.byContradiction fun hway => ?_
    obtain ⟨⟨e, he⟩, -⟩ := hnot hway
    cases he
  obtain ⟨-, hplace, hways⟩ := hclear hway
  exact ⟨hplace.toStanding, fun _ => hplace.hidden, Or.inr ⟨by simp, hway⟩,
    fun _ _ => ⟨c, by simp, hanswer, hways⟩⟩

variable {w : World (σ × List Call)}

/-- The list once the files are annotated and it was emptied, if none of them failed. -/
theorem Truncated.standing (htruncated : Truncated list o t t') (h : Standing t list octets) :
    Standing t' list (if o.failures = [] then [] else octets) ∧
      ∀ path, t.isPresent path = false → t'.isPresent path = false := by
  cases htruncated with
  | emptied hnone hwrite =>
    obtain ⟨t'', hwrite', hstanding, hkeep⟩ := h.write []
    cases hwrite.symm.trans hwrite'
    rw [if_pos hnone]
    exact ⟨hstanding, hkeep⟩
  | kept hsome htree =>
    rw [if_neg hsome, htree]
    exact ⟨h, fun _ hp => hp⟩

theorem ends_eliminate {surveyed : Except Failure (Json.Fields × List Path × List Report)}
    (hsurveyed : surveyed = ((survey l.watched s base).runFrom w).1)
    (ht₁ : t₁ = ((survey l.watched s base).runFrom w).2.tree)
    (h : Standing w.tree (listPath s base) octets)
    (hhidden : hiddenPath (listPath s base) = .ok hidden) (hcalls : w.state.2 = []) :
    (eliminate l.watched s base style).Ends w fun r t x =>
      (∀ c ∈ x.2, c.after = c.before ∧ c.Spares base (listPath s base)) → ∀ o, r = .ok o →
        Elimination base (listPath s base) hidden style octets w.tree t x.2
          surveyed t₁ o := by
  refine ends_eliminate_of hcalls ends_runFrom (fun e state _ hrun => ?_)
    (fun config files _ asked e t state hask hrun => ?_)
    fun config files _ asked reports t state hask hrun log => ?_
  · obtain rfl := hrun.1.trans hsurveyed.symm
    exact settled_elimination h fun _ => Or.inl ⟨rfl, rfl⟩
  · obtain rfl := hrun.1.trans hsurveyed.symm
    exact settled_elimination h fun hquiet => first_of_asking hask h hhidden fun c hc => (hquiet c hc).1
  obtain rfl := hrun.1.trans hsurveyed.symm
  obtain rfl := hrun.2.1.trans ht₁.symm
  have hready : (∀ c ∈ asked, c.after = c.before ∧ c.Spares base (listPath s base)) → _ :=
    fun hquiet => ready_of_asking hask h hhidden fun c hc => (hquiet c hc).1
  refine ends_work (ends_annotateAll_standing (fun hquiet => (hready hquiet).1) fun hquiet r hr => ?_)
    (fun _ _ _ _ o ho => by cases ho) (fun results o t₂ _ hstanding _ e hwrite => ?_)
    fun results o t₂ hworked hstanding t₃ htruncated log => ?_
  · obtain ⟨c, hc, hanswer, hways⟩ := (hready hquiet).2.2.2 r hr
    exact ⟨c, (hquiet c hc).2, hanswer, hways⟩
  · -- The list is a file, so that it can be emptied.
    refine .of_forall fun r hquiet => ?_
    obtain ⟨t₃, hwrite', -⟩ := (hstanding hquiet).1.write []
    cases (TextFile.write_eq_ok.mpr hwrite').symm.trans hwrite
  refine ends_recount.mono fun r t' x ⟨later, answer, hlater, hask', ho', _⟩ hquiet o' ho => ?_
  obtain ⟨state', calls⟩ := x
  obtain rfl : calls = asked ++ later := hlater
  have hquiet₁ : ∀ c ∈ asked, c.after = c.before ∧ c.Spares base (listPath s base) :=
    fun c hc => hquiet c (List.mem_append_left _ hc)
  obtain ⟨-, habsent, hway, -⟩ := hready hquiet₁
  obtain ⟨hstanding₂, hkeep₂⟩ := hstanding hquiet₁
  obtain ⟨hstanding₃, hkeep₃⟩ := htruncated.standing hstanding₂
  obtain ⟨hstanding', hnone⟩ := standing_of_asking hask' hstanding₃
    (fun hne => hkeep₃ _ (hkeep₂ _ (habsent hne))) hhidden
    fun c hc => (hquiet c (List.mem_append_right _ hc)).1
  simp only [hworked.failures_eq_nil] at hstanding'
  refine .of_ok ?_ hworked hstanding' (ho' o' ho)
  rcases hway with ⟨rfl, rfl⟩ | ⟨-, hclear⟩
  · exact Or.inl (by simp [hnone rfl])
  · exact Or.inr hclear

/-- What every elimination of a list that is a file comes to, if the linter changes nothing and
reports nothing on the list. -/
theorem elimination_of_ok (l : Linter σ) (s : Settings) (base : Path) (style : Suppression.Style)
    (w : World σ) (h : Standing w.tree (listPath s base) octets)
    (hcalls : ∀ c ∈ (Task.eliminate style).calls l s base w,
      c.after = c.before ∧ c.Spares base (listPath s base))
    (ho : ((eliminate l s base style).runFrom w).1 = .ok o) :
    ∃ hidden, hiddenPath (listPath s base) = .ok hidden ∧
      Elimination base (listPath s base) hidden style octets w.tree
        ((eliminate l s base style).runFrom w).2.tree ((Task.eliminate style).calls l s base w)
        ((survey l s base).runFrom w).1 ((survey l s base).runFrom w).2.tree o := by
  obtain ⟨directory, name, hentry, -⟩ := h.tree.exists_entry h.list nofun
  obtain ⟨hidden, hhidden⟩ := exists_hiddenPath hentry
  have hmirrors : Mirrors Prod.fst (survey l.watched s base) (survey l s base) := mirrors_survey
  have hsurvey := hmirrors w.watched
  rw [show w.watched.map Prod.fst = w from rfl] at hsurvey
  have hends := (Task.eliminate style).of_watched l s base w
    (P := fun r t calls => (∀ c ∈ calls, c.after = c.before ∧ c.Spares base (listPath s base)) →
      ∀ o, r = .ok o → Elimination base (listPath s base) hidden style octets w.tree t calls
        ((survey l s base).runFrom w).1 ((survey l s base).runFrom w).2.tree o) <| by
      refine ends_eliminate ?_ ?_ h hhidden rfl
      · rw [hsurvey]
      · rw [hsurvey]
        rfl
  have hjob : (Task.eliminate style).job l s base = eliminate l s base style := rfl
  rw [hjob] at hends
  exact ⟨hidden, hhidden, hends hcalls o ho⟩

theorem elimination_of_ok_sample : ∃ o hidden,
    hiddenPath (listPath .standard Sample.base) = .ok hidden ∧
      Elimination Sample.base (listPath .standard Sample.base) hidden .block Sample.list Sample.tree
        ((eliminate Sample.strict .standard Sample.base .block).runFrom Sample.world).2.tree
        ((Task.eliminate .block).calls Sample.strict .standard Sample.base Sample.world)
        ((survey Sample.strict .standard Sample.base).runFrom Sample.world).1
        ((survey Sample.strict .standard Sample.base).runFrom Sample.world).2.tree o := by
  have hrun : ∃ o, ((eliminate Sample.strict .standard Sample.base .block).runFrom Sample.world).1 =
      .ok o := by
    refine ⟨⟨"eliminate", .ok, some 1, some 1, 1, none, none, none, []⟩, ?_⟩
    decide +kernel
  obtain ⟨o, ho⟩ := hrun
  exact ⟨o, elimination_of_ok Sample.strict .standard Sample.base .block Sample.world
    ⟨by decide +kernel, by decide +kernel⟩ (by decide +kernel) ho⟩

/-- A list whose path leads through a link at its hidden path does not come back. -/
theorem list_lost_sample :
    let base : Path := ⟨.absolute, [".stylelintignore.slim-hidden", ".."]⟩
    let w : World Unit := ⟨(Sample.tree.put ["sub"] .directory).put
      [".stylelintignore.slim-hidden"] (.link "sub"), (), []⟩
    let run := (eliminate Sample.strict .standard base .block).runFrom w
    w.tree.IsTree ∧ w.tree.lstat (listPath .standard base).text = .ok (.file Sample.list) ∧
      (∀ c ∈ (Task.eliminate .block).calls Sample.strict .standard base w,
        c.after = c.before ∧ c.Spares base (listPath .standard base)) ∧
      run.1.map Outcome.status = .ok .aborted ∧
      run.2.tree.isPresent (listPath .standard base).text = false := by
  decide +kernel

end Workflow
end LintDebt
