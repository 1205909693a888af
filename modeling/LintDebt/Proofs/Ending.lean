import LintDebt.Job

/-! # How jobs end

A job ends with a result or a failure, and leaves a tree and a state behind. `Ends` says what holds
then, and has one rule for each way to build a job. What was logged is left out of it: nothing that
a job does here depends on the log, except what a linter may make of it. -/

namespace LintDebt.Job

variable {σ τ α β : Type} {w : World σ}

/-- How a job ends in a world, and the world that it leaves. -/
def runFrom (x : Job σ α) (w : World σ) : Except Failure α × World σ := x.run.run w

theorem runFrom_bind (x : Job σ α) (f : α → Job σ β) :
    (x >>= f).runFrom w = match x.runFrom w with
      | (.ok a, w') => (f a).runFrom w'
      | (.error e, w') => (.error e, w') := by
  simp only [runFrom, ExceptT.run_bind, StateT.run_bind]
  rcases (ExceptT.run x).run w with ⟨_ | a, w'⟩ <;> rfl

@[simp] theorem runFrom_tree : (Job.tree : Job σ FileTree).runFrom w = (.ok w.tree, w) := rfl

@[simp] theorem runFrom_ofExcept (x : Except Failure α) :
    (ofExcept x : Job σ α).runFrom w = (x, w) := rfl

@[simp] theorem runFrom_writeLog (records : List Log.Record) :
    (writeLog records : Job σ Unit).runFrom w = (.ok (), { w with log := w.log ++ records }) := rfl

@[simp] theorem runFrom_observe (x : Job σ α) :
    x.observe.runFrom w = (.ok (x.runFrom w).1, (x.runFrom w).2) := by
  simp only [runFrom, observe, ExceptT.run_mk]
  rfl

theorem runFrom_changeTree (f : FileTree → Except Failure FileTree) :
    (changeTree f : Job σ Unit).runFrom w = match f w.tree with
      | .ok t => (.ok (), { w with tree := t })
      | .error e => (.error e, w) := by
  simp only [changeTree, runFrom_bind, runFrom_tree, runFrom_ofExcept]
  cases f w.tree <;> rfl

section steps

variable {x : Job σ α} {f : α → Job σ β}

theorem runFrom_tree_bind {f : FileTree → Job σ β} :
    (Job.tree >>= f).runFrom w = (f w.tree).runFrom w := by
  rw [runFrom_bind, runFrom_tree]

theorem runFrom_ok_bind {a : α} : (ofExcept (.ok a) >>= f).runFrom w = (f a).runFrom w := by
  rw [runFrom_bind, runFrom_ofExcept]

theorem runFrom_error_bind {e : Failure} :
    (ofExcept (.error e) >>= f).runFrom w = (.error e, w) := by
  rw [runFrom_bind, runFrom_ofExcept]

theorem runFrom_observe_bind {f : Except Failure α → Job σ β} :
    (x.observe >>= f).runFrom w = (f (x.runFrom w).1).runFrom (x.runFrom w).2 := by
  rw [runFrom_bind, runFrom_observe]

theorem runFrom_note_bind {level : Log.Level} {source : Log.Source} {message : String}
    {f : Unit → Job σ β} :
    (note level source message >>= f).runFrom w =
      (f ()).runFrom { w with log := w.log ++ [⟨level, source, message⟩] } := by
  rw [runFrom_bind, note, runFrom_writeLog]

theorem runFrom_changeTree_bind {g : FileTree → Except Failure FileTree} {f : Unit → Job σ β}
    {t : FileTree} (h : g w.tree = .ok t) :
    (changeTree g >>= f).runFrom w = (f ()).runFrom { w with tree := t } := by
  rw [runFrom_bind, runFrom_changeTree, h]

theorem runFrom_changeTree_bind_error {g : FileTree → Except Failure FileTree}
    {f : Unit → Job σ β} {e : Failure} (h : g w.tree = .error e) :
    (changeTree g >>= f).runFrom w = (.error e, w) := by
  rw [runFrom_bind, runFrom_changeTree, h]

end steps

/-- Holds if `Q` holds of how a job ends, and of the tree and the state that it leaves. -/
def Ends (x : Job σ α) (w : World σ) (Q : Except Failure α → FileTree → σ → Prop) : Prop :=
  Q (x.runFrom w).1 (x.runFrom w).2.tree (x.runFrom w).2.state

section rules

variable {x : Job σ α} {f : α → Job σ β} {P : Except Failure α → FileTree → σ → Prop}
  {Q : Except Failure β → FileTree → σ → Prop}

theorem Ends.mono {P' : Except Failure α → FileTree → σ → Prop} (h : x.Ends w P)
    (hPP' : ∀ r t s, P r t s → P' r t s) : x.Ends w P' :=
  hPP' _ _ _ h

theorem Ends.and {P' : Except Failure α → FileTree → σ → Prop} (h : x.Ends w P) (h' : x.Ends w P') :
    x.Ends w fun r t s => P r t s ∧ P' r t s :=
  ⟨h, h'⟩

/-- Nothing need be known of how a job ends. -/
theorem ends_true : x.Ends w fun _ _ _ => True := trivial

/-- A job ends as it does. -/
theorem ends_runFrom : x.Ends w fun r t s =>
    r = (x.runFrom w).1 ∧ t = (x.runFrom w).2.tree ∧ s = (x.runFrom w).2.state :=
  ⟨rfl, rfl, rfl⟩

/-- A job is followed from wherever the job before it ends. -/
theorem Ends.bind (h : x.Ends w fun r t s => match r with
      | .ok a => ∀ log, (f a).Ends ⟨t, s, log⟩ Q
      | .error e => Q (.error e) t s) : (x >>= f).Ends w Q := by
  unfold Ends at h ⊢
  rw [runFrom_bind]
  rcases hx : x.runFrom w with ⟨_ | a, w'⟩ <;> rw [hx] at h
  · exact h
  · exact h w'.log

theorem ends_ofExcept {r : Except Failure α} : (ofExcept r : Job σ α).Ends w P ↔ P r w.tree w.state :=
  Iff.rfl

theorem ends_tree_bind {f : FileTree → Job σ β} :
    (Job.tree >>= f).Ends w Q ↔ (f w.tree).Ends w Q := by
  unfold Ends
  rw [runFrom_bind, runFrom_tree]

theorem ends_ofExcept_bind {r : Except Failure α} :
    (ofExcept r >>= f).Ends w Q ↔ match r with
      | .ok a => (f a).Ends w Q
      | .error e => Q (.error e) w.tree w.state := by
  unfold Ends
  rw [runFrom_bind, runFrom_ofExcept]
  cases r <;> rfl

theorem ends_observe_bind {f : Except Failure α → Job σ β} :
    (x.observe >>= f).Ends w Q ↔ x.Ends w (fun r t s => (f r).Ends ⟨t, s, (x.runFrom w).2.log⟩ Q) := by
  unfold Ends
  rw [runFrom_bind, runFrom_observe]

theorem ends_writeLog_bind {records : List Log.Record} {f : Unit → Job σ β} :
    (writeLog records >>= f).Ends w Q ↔ (f ()).Ends { w with log := w.log ++ records } Q := by
  unfold Ends
  rw [runFrom_bind, runFrom_writeLog]

theorem ends_note_bind {level : Log.Level} {source : Log.Source} {message : String}
    {f : Unit → Job σ β} :
    (note level source message >>= f).Ends w Q ↔
      (f ()).Ends { w with log := w.log ++ [⟨level, source, message⟩] } Q :=
  ends_writeLog_bind

theorem ends_changeTree {g : FileTree → Except Failure FileTree}
    {P : Except Failure Unit → FileTree → σ → Prop} :
    (changeTree g).Ends w P ↔ match g w.tree with
      | .ok t => P (.ok ()) t w.state
      | .error e => P (.error e) w.tree w.state := by
  unfold Ends
  rw [runFrom_changeTree]
  cases g w.tree <;> rfl

theorem ends_changeTree_bind {g : FileTree → Except Failure FileTree} {f : Unit → Job σ β} :
    (changeTree g >>= f).Ends w Q ↔ match g w.tree with
      | .ok t => (f ()).Ends { w with tree := t } Q
      | .error e => Q (.error e) w.tree w.state := by
  unfold Ends
  rw [runFrom_bind, runFrom_changeTree]
  cases g w.tree <;> rfl

/-- A loop is followed by what is known while some of the list is left. -/
theorem ends_foldlM {f : β → α → Job σ β} (J : List α → β → FileTree → σ → Prop)
    (hstep : ∀ a rest b w, J (a :: rest) b w.tree w.state → (f b a).Ends w fun r t s => match r with
      | .ok b' => J rest b' t s
      | .error e => Q (.error e) t s)
    (hend : ∀ b t s, J [] b t s → Q (.ok b) t s) {l : List α} {b : β} (h : J l b w.tree w.state) :
    (l.foldlM f b).Ends w Q := by
  induction l generalizing b w with
  | nil => exact hend b w.tree w.state h
  | cons a rest ih =>
    rw [List.foldlM_cons]
    refine Ends.bind ((hstep a rest b w h).mono fun r t s hr => ?_)
    cases r with
    | error e => exact hr
    | ok b' => exact fun log => ih hr

theorem ends_ofTraced {r : Traced Failure α} :
    (ofTraced r : Job σ α).Ends w P ↔ P r.result w.tree w.state := by
  rw [ofTraced, ends_writeLog_bind, ends_ofExcept]

end rules

end LintDebt.Job
