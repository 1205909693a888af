import LintDebt.Proofs.Ending
import LintDebt.Proofs.FileTree.Contents
import LintDebt.Proofs.Query.HiddenPath

/-! # Runs while the list is hidden

A job that runs while the list is hidden runs in a world of its own: the list is at its hidden path,
and the log says so. These are the ways in which such a run can go, with all that it leaves, and
`ends_whileHidden` is the rule for them all. Nothing is assumed about the job. -/

namespace LintDebt.Query

open Job

variable {σ α : Type} {w : World σ} {job : Job σ α} {list hidden : Path} {t t₁ : FileTree}

/-- The world in which a job runs while a file is hidden. -/
def inside (w : World σ) (list hidden : Path) (t : FileTree) : World σ :=
  ⟨t, w.state, w.log ++ [⟨.debug, .query, s!"Moved {list} to {hidden} while linting"⟩]⟩

/-- What is reported if a file cannot be moved. -/
def stuck (source target : Path) (e : OsError) : Failure :=
  TextFile.refusal (fun f => .unmovable f source.text target.text) e

theorem rename_eq (t : FileTree) (source target : Path) :
    TextFile.rename t source.text target.text = match t.rename source.text target.text with
      | .ok t' => .ok t'
      | .error e => .error (stuck source target e) := by
  rw [TextFile.rename]
  cases t.rename source.text target.text <;> rfl

/-- Paths that get to the tree at all are refused as an error of the tool's. -/
theorem exists_stuck {source target : Path} {e : OsError} (hsource : '\x00' ∉ source.text.toList)
    (htarget : '\x00' ∉ target.text.toList) (h : t.rename source.text target.text = .error e) :
    ∃ code, e = .refused code source.text (some target.text) ∧
      stuck source target e = .tool (.unmovable (.os e) source.text target.text) := by
  rw [FileTree.rename, FileTree.route_of_eq_ok.mpr ⟨hsource, rfl⟩,
    FileTree.route_of_eq_ok.mpr ⟨htarget, rfl⟩] at h
  obtain ⟨code, -, rfl⟩ := mapError_eq_error.mp h
  exact ⟨code, rfl, rfl⟩

/-- Without an answer to whether the list is there, nothing is done. -/
theorem runFrom_whileHidden_of_unknown {e : OsError} (h : w.tree.existsAt list.text = .error e) :
    (whileHidden list job).runFrom w = (.error (.fault (.os e)), w) := by
  rw [whileHidden, runFrom_tree_bind, h]
  exact runFrom_error_bind

/-- Without a list there is nothing to hide. -/
theorem runFrom_whileHidden_of_absent (h : w.tree.existsAt list.text = .ok false) :
    (whileHidden list job).runFrom w = job.runFrom w := by
  rw [whileHidden, runFrom_tree_bind, h]
  exact runFrom_ok_bind

section

variable (h : w.tree.existsAt list.text = .ok true) (hhidden : hiddenPath list = .ok hidden)
include h hhidden

/-- A list that is there is moved away first. -/
theorem runFrom_whileHidden :
    (whileHidden list job).runFrom w = (do
      changeTree fun t => TextFile.rename t list.text hidden.text
      note .debug .query s!"Moved {list} to {hidden} while linting"
      let result ← job.observe
      changeTree fun t => TextFile.rename t hidden.text list.text
      Job.ofExcept result : Job σ α).runFrom w := by
  rw [whileHidden, runFrom_tree_bind, h]
  simp only [liftOs, mapError_ok]
  rw [runFrom_ok_bind, hhidden]
  simp only [liftFault, mapError_ok, Bool.not_true, Bool.false_eq_true, ↓reduceIte]
  exact runFrom_ok_bind

/-- A list that cannot be moved away stays where it is, and the job does not run. -/
theorem runFrom_whileHidden_of_stuck {e : OsError}
    (haway : w.tree.rename list.text hidden.text = .error e) :
    (whileHidden list job).runFrom w = (.error (stuck list hidden e), w) := by
  rw [runFrom_whileHidden h hhidden]
  apply runFrom_changeTree_bind_error
  rw [rename_eq, haway]

/-- A list that can be moved away is moved back after the job, however that ended. -/
theorem runFrom_whileHidden_of_away (haway : w.tree.rename list.text hidden.text = .ok t₁)
    (hback : (job.runFrom (inside w list hidden t₁)).2.tree.rename hidden.text list.text = .ok t) :
    (whileHidden list job).runFrom w =
      ((job.runFrom (inside w list hidden t₁)).1,
        { (job.runFrom (inside w list hidden t₁)).2 with tree := t }) := by
  rw [runFrom_whileHidden h hhidden, runFrom_changeTree_bind (t := t₁) (by rw [rename_eq, haway]),
    runFrom_note_bind, runFrom_observe_bind]
  rw [show (⟨t₁, w.state, w.log ++ [⟨.debug, .query, _⟩]⟩ : World σ) = inside w list hidden t₁ from rfl]
  rw [runFrom_changeTree_bind (t := t) (by rw [rename_eq, hback])]
  rfl

end

/-- How a run while the list is hidden ends, by the ways in which it can go. -/
theorem ends_whileHidden {Q : Except Failure α → FileTree → σ → Prop}
    (hunknown : ∀ e, w.tree.existsAt list.text = .error e →
      Q (.error (.fault (.os e))) w.tree w.state)
    (habsent : w.tree.existsAt list.text = .ok false → job.Ends w Q)
    (hnameless : ∀ f, hiddenPath list = .error f → Q (.error (.fault f)) w.tree w.state)
    (hstuck : ∀ hidden e, w.tree.existsAt list.text = .ok true → hiddenPath list = .ok hidden →
      w.tree.rename list.text hidden.text = .error e →
        Q (.error (stuck list hidden e)) w.tree w.state)
    (haway : ∀ hidden t₁, w.tree.existsAt list.text = .ok true → hiddenPath list = .ok hidden →
      w.tree.rename list.text hidden.text = .ok t₁ →
        job.Ends (inside w list hidden t₁) fun r t s =>
          (∀ t', t.rename hidden.text list.text = .ok t' → Q r t' s) ∧
          ∀ e, t.rename hidden.text list.text = .error e → Q (.error (stuck hidden list e)) t s) :
    (whileHidden list job).Ends w Q := by
  rw [whileHidden, ends_tree_bind, ends_ofExcept_bind]
  rcases hlist : w.tree.existsAt list.text with e | found
  · exact hunknown e hlist
  cases found with
  | false => exact habsent hlist
  | true =>
    simp only [liftOs, mapError_ok, Bool.not_true, Bool.false_eq_true, ↓reduceIte]
    rw [ends_ofExcept_bind]
    rcases hhidden : hiddenPath list with f | hidden
    · exact hnameless f hhidden
    simp only [liftFault, mapError_ok]
    rw [ends_changeTree_bind, rename_eq]
    rcases hmove : w.tree.rename list.text hidden.text with e | t₁
    · exact hstuck hidden e hlist hhidden hmove
    simp only
    rw [ends_note_bind, ends_observe_bind]
    refine (haway hidden t₁ hlist hhidden hmove).mono fun r t s ⟨hback, hlost⟩ => ?_
    rw [ends_changeTree_bind, rename_eq]
    rcases hreturn : t.rename hidden.text list.text with e | t'
    · exact hlost e hreturn
    · exact hback t' hreturn

end LintDebt.Query
