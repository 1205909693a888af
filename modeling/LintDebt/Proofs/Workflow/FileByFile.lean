import LintDebt.Proofs.Query.Restoring
import LintDebt.Proofs.Workflow.Elimination
import LintDebt.Proofs.Workflow.Independence

/-! # What an elimination changes, file by file

Once its survey succeeded, an elimination changes the files of the failing reports that have a plan,
and the list. The survey itself may have changed one more thing: what stood at the hidden path of the
list is gone if the linter was asked. So everything is said of the tree that the survey left, which is
the tree of the start if nothing stood there. -/

namespace LintDebt

open FileTree Query

namespace Workflow

open Job

variable {σ : Type} {l : Linter σ} {s : Settings} {base list : Path} {style : Suppression.Style}
  {t t₁ t₂ t₃ t' : FileTree} {calls first second : List Call} {config : Json.Fields}
  {files : List Path} {reports : List Report} {r : Except Failure (List Report)} {o : Outcome}
  {octets new : List UInt8} {w : World (σ × List Call)}

/-- After the last question the tree is as it was before the list was written, or after. -/
theorem tree_of_last_asking (hfirst : Asking list config files t first (.ok reports) t₁)
    (ht : t.IsTree) (hread : t.read list.text = .ok octets)
    (hquiet : ∀ c ∈ first, c.after = c.before) (hshape : SameShape t₁ t₂)
    (h₃ : t₃ = t₂ ∨ t₂.write list.text new = .ok t₃)
    (hsecond : Asking list config files t₃ second r t') (hquiet' : ∀ c ∈ second, c.after = c.before) :
    t' = t₂ ∨ t₂.write list.text new = .ok t' := by
  rcases hfirst.movable ht hread hquiet with ⟨rfl, -, -⟩ |
    ⟨-, hidden, directory, name, n, hmovable, hn, hdir, -, rfl⟩
  · rwa [hsecond.of_nil.2.2]
  have hd : directory ++ [name ++ hiddenSuffix] ≠ [] := concat_ne_nil
  have hvacant : t₂.node? (directory ++ [name ++ hiddenSuffix]) = none := by
    rw [← hshape.node?_eq_none, node?_erase hd, if_pos rfl]
  have hways : SameWays (t.erase (directory ++ [name ++ hiddenSuffix])) t₃ := by
    rcases h₃ with rfl | hwrite
    · exact hshape.sameWays
    · obtain ⟨x, -, -, hx, hway, rfl, -⟩ := exists_place_of_write hwrite
      exact hshape.sameWays.trans (sameWays_put hx hway new)
  have hplace : t₃.node? (directory ++ [name]) ≠ some .directory := by
    intro hdir₃
    have hdir₁ := hways.symm.node?_eq hdir₃ rfl
    rw [node?_erase hd, if_neg concat_ne_hidden, hn] at hdir₁
    exact hdir (Option.some.inj hdir₁)
  rcases hsecond.of_movable (hmovable.erase.of_sameWays hways) hplace hquiet' with rfl | rfl
  · exact h₃
  -- What the question took away is at most what the write had put there.
  rcases h₃ with rfl | hwrite
  · exact Or.inl (erase_eq_self hd hvacant)
  · obtain ⟨x, -, -, hx, -, rfl, -⟩ := exists_place_of_write hwrite
    by_cases hxd : x.place = directory ++ [name ++ hiddenSuffix]
    · rw [hxd, put_erase]
      exact Or.inl (erase_eq_self hd hvacant)
    · rw [erase_eq_self hd]
      · exact Or.inr hwrite
      · rw [node?_put hx, if_neg (Ne.symm hxd), hvacant]

/-- What an elimination has done when it ends, from the tree `t₁` that its survey left to the tree
`t₃` in which the errors that are left are counted. -/
structure Progress (base list : Path) (style : Suppression.Style) (reports : List Report)
    (t₁ t₂ t₃ : FileTree) (results : List (Except Failure Int)) (late : List String) (o : Outcome) :
    Prop where
  annotations : Annotations Unit base style t₁ (reports.filter Report.errored) results t₂
  goes : ∀ result ∈ results, NoFault result
  written : t₃ = t₂ ∨ t₂.write list.text [] = .ok t₃
  failures : o.failures = results.filterMap failureText ++ late
  late : late.length ≤ 1
  processed : o.filesProcessed = results.countP Except.isOk

theorem Worked.progress {results : List (Except Failure Int)} {late : List String} {o' : Outcome}
    (h : Worked σ base style reports t₁ results o t₂) (htruncated : Truncated list o t₂ t₃)
    (hfailures : o'.failures = results.filterMap failureText ++ late) (hlate : late.length ≤ 1)
    (hprocessed : o'.filesProcessed = results.countP Except.isOk) :
    Progress base list style reports t₁ t₂ t₃ results late o' := by
  refine ⟨h.annotations.map fun _ => (), h.goes, ?_, hfailures, hlate, hprocessed⟩
  cases htruncated with
  | emptied _ hwrite => exact Or.inr hwrite
  | kept _ htree => exact Or.inl htree

/-- No question about the surveyed files names one that is suppressed as a whole. -/
theorem Surveyed.not_mem_files {c : Call} {p : Path} (h : Surveyed t s base config files)
    (hfiles : c.files = files.map Path.text) (hcovers : Blanket.covers t p = .ok true) :
    p.text ∉ c.files := by
  intro hp
  rw [hfiles] at hp
  obtain ⟨q, hq, htext⟩ := List.mem_map.mp hp
  rw [← Blanket.covers_congr htext, ← Blanket.isOpen_eq_false, h.isOpen hq] at hcovers
  cases hcovers

/-- The work of an elimination, with the calls of its last question. -/
theorem ends_work_progress :
    (work l.watched s base style config files reports).Ends w fun r t' x => ∀ o', r = .ok o' →
      ∃ t₂ t₃ results late second,
        Progress base (listPath s base) style reports w.tree t₂ t₃ results late o' ∧
          x.2 = w.state.2 ++ second ∧ (second = [] ∧ t' = t₃ ∨
            ∃ answer, Asking (listPath s base) config files t₃ second answer t') := by
  refine ends_work ends_true (fun _ _ _ o' ho' => by cases ho') (fun results o t₂ hworked _ _ e _ => ?_)
    fun results o t₂ hworked _ t₃ htruncated log => ?_
  · cases e with
    | fault f => exact fun o' ho' => by cases ho'
    | tool e =>
      intro o' ho'
      cases ho'
      obtain ⟨-, hprocessed, hfailures⟩ := hworked.counts
      refine ⟨t₂, t₂, results, [e.message], [], ⟨hworked.annotations.map fun _ => (), hworked.goes,
        Or.inl rfl, ?_, by simp, hprocessed⟩, (List.append_nil _).symm, Or.inl ⟨rfl, rfl⟩⟩
      rw [← hfailures]
      rfl
  · refine ends_recount.mono fun r t' x ⟨second, answer, hsecond, hask, ho', _⟩ o' hr => ?_
    obtain ⟨-, hprocessed, late, hfailures, hlate⟩ := hworked.recounted (ho' o' hr)
    exact ⟨t₂, t₃, results, late, second, hworked.progress htruncated hfailures hlate hprocessed,
      hsecond, Or.inr ⟨answer, hask⟩⟩

/-- What an elimination comes to for each file, from the tree `t` to the tree `t'`, with `t₁` between
the survey and the work. -/
structure FileByFile (base list : Path) (style : Suppression.Style) (reports : List Report)
    (t t₁ t' : FileTree) (calls : List Call) (o : Outcome) : Prop where
  surveyed : calls = [] ∧ t₁ = t ∨ calls ≠ [] ∧ t₁ = bare t list
  unoccupied : ∀ hidden, hiddenPath list = .ok hidden → t.isPresent hidden.text = false → t₁ = t
  each : ∃ results late,
    List.Forall₂ (fun r result => ∃ p, sourcePath t₁ base r.source = .ok p ∧
      Handled t₁ t' style p (.ofViolations r.warnings) result)
        (reports.filter Report.errored) results ∧
    o.failures = results.filterMap failureText ++ late ∧ late.length ≤ 1 ∧
    o.filesProcessed = results.countP Except.isOk
  elsewhere : ∀ l, t'.node? l ≠ t₁.node? l → t₁.target? list.text = some l ∨
    ∃ r ∈ reports, r.errored = true ∧ ∃ p, sourcePath t₁ base r.source = .ok p ∧
      t₁.target? p.text = some l ∧ Suppression.Plan.ofViolations r.warnings ≠ []
  unasked : ∀ c ∈ calls, ∀ p, Blanket.covers t p = .ok true → p.text ∉ c.files

/-- Holds if the list and the files of the failing reports are at different places. -/
def Apart (t : FileTree) (base list : Path) (reports : List Report) : Prop :=
  ((t.target? list.text).toList ++
    (reports.filter Report.errored).filterMap (reportPlace? t base)).Nodup

instance : Decidable (Apart t base list reports) := inferInstanceAs (Decidable (List.Nodup _))

/-- What was done before the list was written still holds afterwards. -/
theorem FileByFile.of_progress {results : List (Except Failure Int)} {late : List String}
    (h : Progress base list style reports t₁ t₂ t₃ results late o) (hapart : Apart t₁ base list reports)
    (hstop : t' = t₂ ∨ t₂.write list.text [] = .ok t')
    (hsurveyed : calls = [] ∧ t₁ = t ∨ calls ≠ [] ∧ t₁ = bare t list)
    (hunoccupied : ∀ hidden, hiddenPath list = .ok hidden → t.isPresent hidden.text = false → t₁ = t)
    (hunasked : ∀ c ∈ calls, ∀ p, Blanket.covers t p = .ok true → p.text ∉ c.files) :
    FileByFile base list style reports t t₁ t' calls o := by
  have hshape := h.annotations.sameShape
  obtain ⟨-, hnodup, hlist⟩ := List.nodup_append.mp hapart
  have hways : SameWays t₂ t' ∧ ∀ l, t'.node? l ≠ t₂.node? l → t₁.target? list.text = some l := by
    rcases hstop with rfl | hwrite
    · exact ⟨.refl _, fun l hl => absurd rfl hl⟩
    · obtain ⟨x, hnull, hx, hne, hway, rfl, -⟩ := exists_place_of_write hwrite
      refine ⟨sameWays_put hne hway [], fun l hl => ?_⟩
      rw [hshape.target?_eq, target?_of_seek hnull hx]
      rw [node?_put hne] at hl
      split at hl
      · next heq => rw [heq]
      · exact absurd rfl hl
  obtain ⟨hways, hwritten⟩ := hways
  refine ⟨hsurveyed, hunoccupied, ⟨results, late, ?_, h.failures, h.late, h.processed⟩, ?_, hunasked⟩
  · have hall := (List.forall₂_and_left (p := (· ∈ reports.filter Report.errored)) _ _).mpr
      ⟨fun _ hr => hr, h.annotations.each h.goes hnodup⟩
    refine hall.imp fun r result ⟨hr, p, hpath, hhandled⟩ => ⟨p, hpath, hhandled.of_end hways ?_⟩
    intro l hl
    refine Decidable.byContradiction fun hne => ?_
    rw [← hshape.target?_eq] at hl
    refine hlist l ?_ l (List.mem_filterMap.mpr ⟨r, hr, ?_⟩) rfl
    · rw [hwritten l (Ne.symm hne)]
      exact List.mem_singleton_self l
    · rw [reportPlace?_of_sourcePath hpath, hl]
  · intro l hl
    by_cases hsame : t'.node? l = t₂.node? l
    · rw [hsame] at hl
      obtain ⟨r, hr, p, hpath, htarget, hplan⟩ := h.annotations.changed hl
      obtain ⟨hr, herrored⟩ := List.mem_filter.mp hr
      exact Or.inr ⟨r, hr, herrored, p, hpath, htarget, hplan⟩
    · exact Or.inl (hwritten l hsame)

theorem ends_eliminate_fileByFile
    {surveyed : Except Failure (Json.Fields × List Path × List Report)}
    (hsurveyed : surveyed = ((survey l.watched s base).runFrom w).1)
    (ht₁ : t₁ = ((survey l.watched s base).runFrom w).2.tree) (ht : w.tree.IsTree)
    (hcalls : w.state.2 = []) :
    (eliminate l.watched s base style).Ends w fun r t' x =>
      (∀ c ∈ x.2, c.after = c.before) → ∀ o, r = .ok o →
        ∀ config files reports, surveyed = .ok (config, files, reports) →
          Apart t₁ base (listPath s base) reports →
            FileByFile base (listPath s base) style reports w.tree t₁ t' x.2 o := by
  refine ends_eliminate_of hcalls ends_runFrom (fun e state _ hrun => ?_)
    (fun config files _ first e t state _ hrun => ?_)
    fun config files hread first reports t state hask hrun log => ?_
  · obtain rfl := hrun.1.trans hsurveyed.symm
    exact .of_forall fun _ _ _ _ _ _ _ heq => by cases heq
  · obtain rfl := hrun.1.trans hsurveyed.symm
    exact .of_forall fun _ _ _ _ _ _ _ heq => by cases heq
  obtain rfl := hrun.1.trans hsurveyed.symm
  obtain rfl := hrun.2.1.trans ht₁.symm
  obtain ⟨octets, hlist⟩ := hread.exists_read
  refine ends_work_progress.mono fun r t' y hwork => ?_
  intro hquiet o ho _ _ _ heq hapart
  cases heq
  obtain ⟨state', calls⟩ := y
  obtain ⟨t₂, t₃, results, late, second, hprogress, hsecond, hlast⟩ := hwork o ho
  obtain rfl : calls = first ++ second := hsecond
  have hquiet₁ : ∀ c ∈ first, c.after = c.before := fun c hc => hquiet c (List.mem_append_left _ hc)
  have hstop : t' = t₂ ∨ t₂.write (listPath s base).text [] = .ok t' := by
    rcases hlast with ⟨-, rfl⟩ | ⟨answer, hask'⟩
    · exact hprogress.written
    · exact tree_of_last_asking hask ht hlist hquiet₁ hprogress.annotations.sameShape
        hprogress.written hask' fun c hc => hquiet c (List.mem_append_right _ hc)
  have hasked : (files = [] → second = []) ∧ ∀ c ∈ second, c.files = files.map Path.text := by
    rcases hlast with ⟨rfl, -⟩ | ⟨answer, hask'⟩
    · simp
    · exact ⟨fun hfiles => (hfiles ▸ hask').of_nil.1, fun c hc => (hask'.asked c hc).2⟩
  refine .of_progress hprogress hapart hstop ?_
    (fun hidden => hask.unoccupied ht hlist hquiet₁) fun c hc p => ?_
  · rcases hask.restored ht hlist hquiet₁ with ⟨hfiles, rfl, rfl⟩ | ⟨hne, hbare, -⟩
    · exact Or.inl ⟨hasked.1 hfiles, rfl⟩
    · exact Or.inr ⟨List.append_ne_nil_of_left_ne_nil hne second, hbare⟩
  · refine hread.not_mem_files ?_
    rcases List.mem_append.mp hc with hc | hc
    · exact (hask.asked c hc).2
    · exact hasked.2 c hc

/-- An elimination by a linter that changes nothing, from its survey on, if the failing reports are on
different files and none of them on the list. -/
theorem fileByFile_of_ok (l : Linter σ) (s : Settings) (base : Path) (style : Suppression.Style)
    (w : World σ) (ht : w.tree.IsTree)
    (hcalls : ∀ c ∈ (Task.eliminate style).calls l s base w, c.after = c.before)
    (hsurvey : ((survey l s base).runFrom w).1 = .ok (config, files, reports))
    (hapart : Apart ((survey l s base).runFrom w).2.tree base (listPath s base) reports)
    (ho : ((eliminate l s base style).runFrom w).1 = .ok o) :
    FileByFile base (listPath s base) style reports w.tree ((survey l s base).runFrom w).2.tree
      ((eliminate l s base style).runFrom w).2.tree ((Task.eliminate style).calls l s base w) o := by
  have hmirrors : Mirrors Prod.fst (survey l.watched s base) (survey l s base) := mirrors_survey
  have hsame : (survey l s base).runFrom w = _ := hmirrors w.watched
  have hresult := congrArg Prod.fst hsame
  have htree := congrArg (fun x => x.2.tree) hsame
  have hends := (Task.eliminate style).of_watched l s base w
    (P := fun r t calls => (∀ c ∈ calls, c.after = c.before) → ∀ o, r = .ok o →
      ∀ config files reports, ((survey l s base).runFrom w).1 = .ok (config, files, reports) →
        Apart ((survey l s base).runFrom w).2.tree base (listPath s base) reports →
          FileByFile base (listPath s base) style reports w.tree
            ((survey l s base).runFrom w).2.tree t calls o)
    (ends_eliminate_fileByFile hresult htree ht rfl)
  have hjob : (Task.eliminate style).job l s base = eliminate l s base style := rfl
  rw [hjob] at hends
  exact hends hcalls o ho config files reports hsurvey hapart

/-- A project whose list names a stylesheet that can be annotated, one that is no text, and one that is
suppressed as a whole. -/
def mixedWorld : World Unit where
  tree := ((Sample.tree.put [".stylelintignore"] (.file (Sample.octets "a.css\nb.css\nc.css\n"))).put
    ["b.css"] (.file [0xff])).put ["c.css"] (.file (Sample.octets "/* stylelint-disable */\n"))
  state := ()
  log := []

/-- What the strict linter reports on the two files that it is asked about. -/
def mixedReports : List Report :=
  ["/a.css", "/b.css"].map fun source =>
    ⟨Text.unitsOf source, true, [⟨.error, 1, 1, Text.unitsOf "rule", []⟩]⟩

theorem fileByFile_of_ok_sample : ∃ o, o.status = .partly ∧
    Apart ((survey Sample.strict .standard Sample.base).runFrom mixedWorld).2.tree Sample.base
      (listPath .standard Sample.base) mixedReports ∧
    FileByFile Sample.base (listPath .standard Sample.base) .block mixedReports mixedWorld.tree
      ((survey Sample.strict .standard Sample.base).runFrom mixedWorld).2.tree
      ((eliminate Sample.strict .standard Sample.base .block).runFrom mixedWorld).2.tree
      ((Task.eliminate .block).calls Sample.strict .standard Sample.base mixedWorld) o := by
  have hreported : ((survey Sample.strict .standard Sample.base).runFrom mixedWorld).1.map Prod.snd =
      .ok ([⟨.absolute, ["a.css"]⟩, ⟨.absolute, ["b.css"]⟩], mixedReports) := by
    decide +kernel
  obtain ⟨config, hsurvey⟩ : ∃ config,
      ((survey Sample.strict .standard Sample.base).runFrom mixedWorld).1 =
        .ok (config, [⟨.absolute, ["a.css"]⟩, ⟨.absolute, ["b.css"]⟩], mixedReports) := by
    obtain ⟨⟨config, rest⟩, hrun, rfl⟩ := map_eq_ok.mp hreported
    exact ⟨config, hrun⟩
  have hrun : ((eliminate Sample.strict .standard Sample.base .block).runFrom mixedWorld).1.map
      Outcome.status = .ok .partly := by
    decide +kernel
  obtain ⟨o, ho, hpartly⟩ := map_eq_ok.mp hrun
  have hapart : Apart ((survey Sample.strict .standard Sample.base).runFrom mixedWorld).2.tree
      Sample.base (listPath .standard Sample.base) mixedReports := by
    decide +kernel
  exact ⟨o, hpartly, hapart, fileByFile_of_ok Sample.strict .standard Sample.base .block mixedWorld
    (by decide +kernel) (by decide +kernel) hsurvey hapart ho⟩

/-- A file at the hidden path that no report is about is lost. -/
theorem bystander_lost_sample :
    let w : World Unit := ⟨Sample.tree.put [".stylelintignore.slim-hidden"]
      (.file (Sample.octets "notes\n")), (), []⟩
    let list := listPath .standard Sample.base
    let t₁ := ((survey Sample.strict .standard Sample.base).runFrom w).2.tree
    let run := (eliminate Sample.strict .standard Sample.base .block).runFrom w
    w.tree.IsTree ∧
      (∀ c ∈ (Task.eliminate .block).calls Sample.strict .standard Sample.base w, c.after = c.before) ∧
      ((survey Sample.strict .standard Sample.base).runFrom w).1.map (fun (_, _, reports) =>
        (t₁.target? list.text).toList ++ reports.filterMap (reportPlace? t₁ Sample.base)) =
          .ok [[".stylelintignore"], ["a.css"]] ∧
      run.1.map Outcome.status = .ok .ok ∧
      w.tree.node? [".stylelintignore.slim-hidden"] = some (.file (Sample.octets "notes\n")) ∧
      run.2.tree.node? [".stylelintignore.slim-hidden"] = none := by
  decide +kernel

end Workflow
end LintDebt
