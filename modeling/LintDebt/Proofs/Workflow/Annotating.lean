import LintDebt.Proofs.Call
import LintDebt.Proofs.Query.Keeping
import LintDebt.Proofs.TextFile
import LintDebt.Proofs.Workflow.Stage
import LintDebt.Workflow.Eliminate

/-! # What annotating changes

To annotate a file is to write to it at most once, and only a file that could be read is written to.
The files of several reports are annotated one after the other, and each is counted as done or as
failed; `Annotations` is the record of that. What the comments are is not said here. -/

namespace LintDebt.Workflow

open Job FileTree Query

variable {σ : Type} {base p : Path} {style : Suppression.Style} {plan : Suppression.Plan}
  {w : World σ} {t t' : FileTree}

/-- How the annotation of one file ends, and the tree after it. A file is written to only if it
could be read, and if its comments cannot be encoded, that is a fault. -/
inductive Annotated (style : Suppression.Style) (p : Path) (plan : Suppression.Plan)
    (t : FileTree) : Except Failure Int → FileTree → Prop where
  /-- There is nothing to add, and the file is not looked at. -/
  | clean (hplan : plan = []) : Annotated style p plan t (.ok 0) t
  /-- The file cannot be read. -/
  | unread (hplan : plan ≠ []) (e : Failure) (hpieces : TextFile.pieces t p = .error e) :
    Annotated style p plan t (.error e) t
  /-- There is no text with these comments, or no octets stand for it. -/
  | refused (hplan : plan ≠ []) (lines : List String) (hpieces : TextFile.pieces t p = .ok lines)
    (hno : ∀ updated octets, plan.apply style (lines.map Text.unitsOf) = .ok updated →
      Utf8.encodeUnits (Text.unlines updated) ≠ .ok octets)
    (f : Fault) (t' : FileTree) (hw : Rewritten t p.text t') :
    Annotated style p plan t (.error (.fault f)) t'
  /-- The file has its comments. -/
  | written (hplan : plan ≠ []) (lines : List String) (hpieces : TextFile.pieces t p = .ok lines)
    (updated : List Text.Units) (happly : plan.apply style (lines.map Text.unitsOf) = .ok updated)
    (octets : List UInt8) (hencode : Utf8.encodeUnits (Text.unlines updated) = .ok octets)
    (t' : FileTree) (hwrite : t.write p.text octets = .ok t') :
    Annotated style p plan t (.ok ((updated.length : Int) - lines.length)) t'

theorem Annotated.rewritten {result : Except Failure Int}
    (h : Annotated style p plan t result t') : Rewritten t p.text t' := by
  cases h with
  | clean | unread => exact Or.inl rfl
  | refused _ _ _ _ _ _ hw => exact hw
  | written _ lines hpieces updated _ octets _ _ hwrite =>
    obtain ⟨old, hold⟩ := TextFile.read_of_pieces hpieces
    exact Or.inr ⟨old, octets, hold, hwrite⟩

/-- A file that can be read is written to, and is left empty if no octets stand for the text. -/
theorem ends_writeText {text : Text.Units} {old : List UInt8} (hold : w.tree.read p.text = .ok old) :
    (writeText p text).Ends w fun r t s => s = w.state ∧ match Utf8.encodeUnits text with
      | .ok octets => r = .ok () ∧ w.tree.write p.text octets = .ok t
      | .error run => r = .error (.fault (.unencodable run)) ∧ w.tree.write p.text [] = .ok t := by
  have hreplace : ∀ new, ∃ t', TextFile.replace w.tree p new = .ok t' := by
    intro new
    obtain ⟨_, _, _, _, hwrite⟩ := write_of_read hold new
    exact ⟨_, TextFile.replace_eq_ok.mpr hwrite⟩
  rw [writeText]
  cases Utf8.encodeUnits text with
  | error run =>
    obtain ⟨t', ht'⟩ := hreplace []
    dsimp only
    rw [ends_changeTree_bind, ht']
    exact ⟨rfl, rfl, TextFile.replace_eq_ok.mp ht'⟩
  | ok octets =>
    obtain ⟨t', ht'⟩ := hreplace octets
    dsimp only
    rw [ends_changeTree, ht']
    exact ⟨rfl, rfl, TextFile.replace_eq_ok.mp ht'⟩

/-- The ways in which the annotation of a file can go. -/
theorem ends_annotate_of {Q : Except Failure Int → FileTree → σ → Prop}
    (hclean : plan = [] → Q (.ok 0) w.tree w.state)
    (hunread : plan ≠ [] → ∀ e, TextFile.pieces w.tree p = .error e → Q (.error e) w.tree w.state)
    (hread : plan ≠ [] → ∀ lines, TextFile.pieces w.tree p = .ok lines →
      match plan.apply style (lines.map Text.unitsOf) with
      | .error f => Q (.error (.fault f)) w.tree w.state
      | .ok updated => match Utf8.encodeUnits (Text.unlines updated) with
        | .error run => ∀ t, w.tree.write p.text [] = .ok t →
          Q (.error (.fault (.unencodable run))) t w.state
        | .ok octets => ∀ t, w.tree.write p.text octets = .ok t →
          Q (.ok ((updated.length : Int) - lines.length)) t w.state) :
    (annotate p plan style).Ends w Q := by
  rw [annotate]
  by_cases hplan : plan = []
  · rw [if_pos (List.isEmpty_iff.mpr hplan)]
    exact hclean hplan
  rw [if_neg (fun hnil => hplan (List.isEmpty_iff.mp hnil)), ends_tree_bind, ends_ofExcept_bind]
  cases hpieces : TextFile.pieces w.tree p with
  | error e => exact hunread hplan e hpieces
  | ok lines =>
    replace hread := hread hplan lines hpieces
    obtain ⟨old, hold⟩ := TextFile.read_of_pieces hpieces
    dsimp only
    rw [ends_ofExcept_bind]
    cases happly : plan.apply style (lines.map Text.unitsOf) with
    | error f =>
      rw [happly] at hread
      exact hread
    | ok updated =>
      rw [happly] at hread
      refine Ends.bind ((ends_writeText hold).mono fun r t s ⟨hs, h⟩ => ?_)
      subst hs
      dsimp only at hread
      cases hencode : Utf8.encodeUnits (Text.unlines updated) with
      | error run =>
        rw [hencode] at h hread
        obtain ⟨rfl, hwrite⟩ := h
        exact hread t hwrite
      | ok octets =>
        rw [hencode] at h hread
        obtain ⟨rfl, hwrite⟩ := h
        intro log
        rw [ends_note_bind]
        exact hread t hwrite

/-- The annotation of a file whose comments can be placed. -/
theorem ends_annotate_of_apply {lines : List String} {updated : List Text.Units} (hplan : plan ≠ [])
    (hpieces : TextFile.pieces w.tree p = .ok lines)
    (happly : plan.apply style (lines.map Text.unitsOf) = .ok updated) :
    (annotate p plan style).Ends w fun r t s => s = w.state ∧
      match Utf8.encodeUnits (Text.unlines updated) with
      | .ok octets => r = .ok ((updated.length : Int) - lines.length) ∧
        w.tree.write p.text octets = .ok t
      | .error run => r = .error (.fault (.unencodable run)) ∧ w.tree.write p.text [] = .ok t := by
  refine ends_annotate_of (fun hnil => absurd hnil hplan) (fun _ e he => ?_) fun _ lines' hlines => ?_
  · cases hpieces.symm.trans he
  · cases hpieces.symm.trans hlines
    rw [happly]
    dsimp only
    cases Utf8.encodeUnits (Text.unlines updated) <;> exact fun t hwrite => ⟨rfl, rfl, hwrite⟩

theorem ends_annotate : (annotate p plan style).Ends w fun r t s =>
    s = w.state ∧ Annotated style p plan w.tree r t := by
  refine ends_annotate_of (fun hplan => ⟨rfl, .clean hplan⟩)
    (fun hplan e he => ⟨rfl, .unread hplan e he⟩) fun hplan lines hpieces => ?_
  cases happly : plan.apply style (lines.map Text.unitsOf) with
  | error f =>
    refine ⟨rfl, .refused hplan lines hpieces (fun updated octets h => ?_) f _ (Or.inl rfl)⟩
    cases happly.symm.trans h
  | ok updated =>
    dsimp only
    cases hencode : Utf8.encodeUnits (Text.unlines updated) with
    | error run =>
      obtain ⟨old, hold⟩ := TextFile.read_of_pieces hpieces
      refine fun t hwrite => ⟨rfl, .refused hplan lines hpieces (fun updated' octets h h' => ?_) _ _
        (Or.inr ⟨old, [], hold, hwrite⟩)⟩
      cases happly.symm.trans h
      cases hencode.symm.trans h'
    | ok octets =>
      exact fun t hwrite => ⟨rfl, .written hplan lines hpieces updated happly octets hencode t hwrite⟩

theorem annotated_runFrom (p : Path) (plan : Suppression.Plan) (style : Suppression.Style)
    (w : World σ) : Annotated style p plan w.tree ((annotate p plan style).runFrom w).1
      ((annotate p plan style).runFrom w).2.tree :=
  ends_annotate.2

/-- How the annotation of each of some reports ends, one after the other, and the tree after them.
The worlds in between differ from those of a run in their logs only. -/
inductive Annotations (σ : Type) (base : Path) (style : Suppression.Style) :
    FileTree → List Report → List (Except Failure Int) → FileTree → Prop where
  | nil (t : FileTree) : Annotations σ base style t [] [] t
  | cons {w : World σ} {r : Report} {rest : List Report} {results : List (Except Failure Int)}
    {t : FileTree} {p : Path} (hpath : sourcePath w.tree base r.source = .ok p)
    (hrest : Annotations σ base style
      ((annotate p (.ofViolations r.warnings) style).runFrom w).2.tree rest results t) :
    Annotations σ base style w.tree (r :: rest)
      (((annotate p (.ofViolations r.warnings) style).runFrom w).1 :: results) t

/-- The state of a world does not matter to annotations. -/
theorem Annotations.map {σ τ : Type} (h : τ → σ) {reports : List Report}
    {results : List (Except Failure Int)} (ha : Annotations τ base style t reports results t') :
    Annotations σ base style t reports results t' := by
  induction ha with
  | nil t => exact .nil t
  | @cons w r rest results t p hpath _ ih =>
    have hrun := mirrors_annotate (h := h) p (.ofViolations r.warnings) style w
    have hcons : Annotations σ base style (w.map h).tree (r :: rest)
        (((annotate p (.ofViolations r.warnings) style).runFrom (w.map h)).1 :: results) t := by
      refine .cons hpath ?_
      rw [hrun]
      exact ih
    rw [hrun] at hcons
    exact hcons

/-- Takes the annotation of one file into account. -/
def record (o : Outcome) : Except Failure Int → Outcome
  | .ok _ => { o with filesProcessed := o.filesProcessed + 1 }
  | .error e => o.addFailure e.message

/-- Holds for the end of an annotation with which a run goes on. -/
def NoFault (result : Except Failure Int) : Prop := ∀ f, result ≠ .error (.fault f)

variable {o : Outcome} {r : Report} {reports : List Report}

/-- The annotation of the file of one report: a fault ends the run, and anything else is recorded. -/
theorem ends_annotateReport_of {Q : Except Failure Outcome → FileTree → σ → Prop}
    (hlost : ∀ f, sourcePath w.tree base r.source = .error f → Q (.error (.fault f)) w.tree w.state)
    (hannotate : ∀ p, sourcePath w.tree base r.source = .ok p →
      (annotate p (.ofViolations r.warnings) style).Ends w fun result t s =>
        (∀ f, result = .error (.fault f) → Q (.error (.fault f)) t s) ∧
          (NoFault result → Q (.ok (record o result)) t s)) :
    (annotateReport base style o r).Ends w Q := by
  rw [annotateReport, ends_tree_bind, ends_ofExcept_bind]
  rcases hpath : sourcePath w.tree base r.source with f | p
  · exact hlost f hpath
  simp only [liftFault, mapError_ok]
  rw [ends_observe_bind]
  refine (hannotate p hpath).mono fun result t s h => ?_
  obtain ⟨hfault, hgoes⟩ := h
  rcases result with (e | f) | n
  · exact hgoes (by simp [NoFault])
  · exact hfault f rfl
  · exact hgoes (by simp [NoFault])

theorem ends_annotateReport : (annotateReport base style o r).Ends w fun res t s =>
    s = w.state ∧
      (t = w.tree ∨ ∃ p, sourcePath w.tree base r.source = .ok p ∧ Rewritten w.tree p.text t) ∧
      ∀ o', res = .ok o' → ∃ p, sourcePath w.tree base r.source = .ok p ∧
        t = ((annotate p (.ofViolations r.warnings) style).runFrom w).2.tree ∧
        o' = record o ((annotate p (.ofViolations r.warnings) style).runFrom w).1 ∧
        NoFault ((annotate p (.ofViolations r.warnings) style).runFrom w).1 := by
  refine ends_annotateReport_of (fun f _ => ⟨rfl, Or.inl rfl, nofun⟩) fun p hpath =>
    (ends_annotate.and ends_runFrom).mono fun result t s ⟨⟨hstate, hannotated⟩, hresult, htree, _⟩ => ?_
  have hframe : t = w.tree ∨ ∃ p, sourcePath w.tree base r.source = .ok p ∧ Rewritten w.tree p.text t :=
    Or.inr ⟨p, hpath, hannotated.rewritten⟩
  refine ⟨fun f _ => ⟨hstate, hframe, nofun⟩, fun hgoes => ⟨hstate, hframe, fun o' ho' => ?_⟩⟩
  cases ho'
  rw [hresult] at hgoes ⊢
  exact ⟨p, hpath, htree, rfl, hgoes⟩

/-- One more report. -/
theorem Annotations.concat {done : List Report} {results : List (Except Failure Int)}
    (h : Annotations σ base style t done results w.tree)
    (hpath : sourcePath w.tree base r.source = .ok p) :
    Annotations σ base style t (done ++ [r])
      (results ++ [((annotate p (.ofViolations r.warnings) style).runFrom w).1])
      ((annotate p (.ofViolations r.warnings) style).runFrom w).2.tree := by
  generalize ht : w.tree = t₁ at h
  induction h with
  | nil =>
    subst ht
    exact .cons hpath (.nil _)
  | cons hpath' _ ih => exact .cons hpath' (ih ht)

/-- What holds of the tree and is not spoilt by a write to the file of a report holds at the end. -/
theorem ends_annotateAll {J : FileTree → Prop}
    (hstep : ∀ r ∈ reports, ∀ t t' p, J t → sourcePath t base r.source = .ok p →
      Rewritten t p.text t' → J t') (h : J w.tree) :
    (annotateAll base style o reports).Ends w fun res t s => s = w.state ∧ J t ∧
      ∀ o', res = .ok o' → ∃ results,
        Annotations σ base style w.tree (reports.filter Report.errored) results t ∧
          (∀ result ∈ results, NoFault result) ∧ o' = results.foldl record o := by
  refine ends_foldlM (fun rest o₁ t s => s = w.state ∧ J t ∧ ∃ done results,
      done ++ rest = reports.filter Report.errored ∧ Annotations σ base style w.tree done results t ∧
        (∀ result ∈ results, NoFault result) ∧ o₁ = results.foldl record o) ?_ ?_
    ⟨rfl, h, [], [], rfl, .nil _, by simp, rfl⟩
  · rintro r rest o₁ w₁ ⟨hstate, hJ, done, results, hdone, hresults, hgoes, rfl⟩
    have hr : r ∈ reports.filter Report.errored := by
      rw [← hdone]
      simp
    refine ends_annotateReport.mono fun res t s ⟨hstate', hframe, hgood⟩ => ?_
    have hJ' : J t := by
      rcases hframe with rfl | ⟨p, hpath, hrewritten⟩
      · exact hJ
      · exact hstep r (List.mem_filter.mp hr).1 _ _ p hJ hpath hrewritten
    cases res with
    | error e => exact ⟨hstate'.trans hstate, hJ', nofun⟩
    | ok o₂ =>
      obtain ⟨p, hpath, rfl, rfl, hgoes'⟩ := hgood o₂ rfl
      refine ⟨hstate'.trans hstate, hJ', done ++ [r], _, ?_, hresults.concat hpath, ?_, ?_⟩
      · rw [← hdone, List.append_assoc, List.singleton_append]
      · simpa [or_imp, forall_and] using And.intro hgoes hgoes'
      · rw [List.foldl_append, List.foldl_cons, List.foldl_nil]
  · rintro o₁ t s ⟨hstate, hJ, done, results, hdone, hresults, hgoes, rfl⟩
    rw [List.append_nil] at hdone
    subst hdone
    exact ⟨hstate, hJ, fun o' ho' => ⟨results, hresults, hgoes, (Except.ok.inj ho').symm⟩⟩

/-- A list that is a file stays as it is while the files of reports are annotated, if the reports
are those of a call that spares it. `G` is whatever else has to be known for that. -/
theorem ends_annotateAll_standing {G : Prop} {list : Path} {octets : List UInt8}
    (hstanding : G → Standing w.tree list octets)
    (hreports : G → ∀ r ∈ reports, ∃ c : Call, c.Spares base list ∧ c.answer = .ok reports ∧
      SameWays c.after w.tree) :
    (annotateAll base style o reports).Ends w fun _ t _ => G → Standing t list octets ∧
      ∀ path, w.tree.isPresent path = false → t.isPresent path = false := by
  refine (ends_annotateAll
    (J := fun t => G → Standing t list octets ∧ SameWays w.tree t ∧
      ∀ path, w.tree.isPresent path = false → t.isPresent path = false)
    (fun r hr t t' p hJ hpath hrewritten hG => ?_)
    fun hG => ⟨hstanding hG, SameWays.refl _, fun _ hp => hp⟩).mono
      fun res t s ⟨_, hJ, _⟩ hG => ⟨(hJ hG).1, (hJ hG).2.2⟩
  obtain ⟨ht, hways, hkeep⟩ := hJ hG
  obtain ⟨c, hspares, hanswer, hcall⟩ := hreports hG r hr
  have hsame := hcall.trans hways
  have hpath' := hspares reports hanswer r hr p (by rw [hsame.sourcePath, hpath])
  rw [hsame.target?_eq, hsame.target?_eq] at hpath'
  obtain ⟨ht', hways', hkeep'⟩ := ht.rewritten hpath' hrewritten
  exact ⟨ht', hways.trans hways', fun path hp => hkeep' path (hkeep path hp)⟩

end LintDebt.Workflow
