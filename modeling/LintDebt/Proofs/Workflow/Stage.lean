import LintDebt.Proofs.Ending
import LintDebt.Workflow.Stage

/-! # How stages end

A stage goes on with the result of its job, aborts on an error of the tool's, and hands every other
failure on. `Settled` is what a property of endings has to say about the two failures; the rules
for the stages that only read leave no more than that to prove. -/

namespace LintDebt.Workflow

open Job

variable {σ α β : Type} {w : World σ} {o : Outcome} {doing : String} {next : α → Job σ Outcome}
  {Q : Except Failure Outcome → FileTree → σ → Prop}

/-- Holds if `Q` holds of a stage that goes no further because of a failure. -/
def Settled (o : Outcome) (Q : Except Failure Outcome → FileTree → σ → Prop) (e : Failure)
    (t : FileTree) (s : σ) : Prop :=
  match e with
  | .tool e => Q (.ok (o.abort e.message)) t s
  | .fault f => Q (.error (.fault f)) t s

/-- A property that does not look at the result does not tell failures apart. -/
theorem Settled.of_forall {e : Failure} {t : FileTree} {s : σ} (h : ∀ r, Q r t s) :
    Settled o Q e t s := by
  cases e with
  | tool e => exact h _
  | fault f => exact h _

/-- What is promised of runs that end well is promised of none that stops at a failure. -/
theorem settled_of_ok {P : σ → Prop} {R : Outcome → FileTree → σ → Prop} {e : Failure} {t : FileTree}
    {s : σ} : Settled o (fun r t s => P s → ∀ o, r = .ok o → o.status = .ok → R o t s) e t s := by
  cases e with
  | tool e =>
    intro _ o' ho hok
    cases ho
    cases hok
  | fault f =>
    intro _ o' ho
    cases ho

theorem ends_stage {x : Job σ α} (h : x.Ends w fun r t s => match r with
      | .ok a => ∀ log, (next a).Ends ⟨t, s, log⟩ Q
      | .error e => Settled o Q e t s) : (stage o doing x next).Ends w Q := by
  rw [stage, ends_observe_bind]
  refine h.mono fun r t s hr => ?_
  rcases r with (e | f) | a
  · exact hr
  · exact hr
  · exact hr _

/-- A stage that only reads the tree. -/
theorem ends_stage_reading {f : FileTree → Except Failure α}
    (hfail : ∀ e, f w.tree = .error e → Settled o Q e w.tree w.state)
    (hgood : ∀ a, f w.tree = .ok a → ∀ log, (next a).Ends ⟨w.tree, w.state, log⟩ Q) :
    (stage o doing (do Job.ofExcept (f (← Job.tree))) next).Ends w Q := by
  refine ends_stage ?_
  rw [ends_tree_bind, ends_ofExcept]
  cases hf : f w.tree with
  | error e => exact hfail e hf
  | ok a => exact hgood a hf

/-- A stage that only reads the tree and tells what it does. -/
theorem ends_stage_traced {f : FileTree → Traced Failure α}
    (hfail : ∀ e, (f w.tree).result = .error e → Settled o Q e w.tree w.state)
    (hgood : ∀ a, (f w.tree).result = .ok a → ∀ log, (next a).Ends ⟨w.tree, w.state, log⟩ Q) :
    (stage o doing (do Job.ofTraced (f (← Job.tree))) next).Ends w Q := by
  refine ends_stage ?_
  rw [ends_tree_bind, ends_ofTraced]
  cases hf : (f w.tree).result with
  | error e => exact hfail e hf
  | ok a => exact hgood a hf

/-- A stage that changes the tree. -/
theorem ends_stage_changeTree {f : FileTree → Except Failure FileTree} {next : Unit → Job σ Outcome}
    (hfail : ∀ e, f w.tree = .error e → Settled o Q e w.tree w.state)
    (hgood : ∀ t, f w.tree = .ok t → ∀ log, (next ()).Ends ⟨t, w.state, log⟩ Q) :
    (stage o doing (Job.changeTree f) next).Ends w Q := by
  refine ends_stage ?_
  rw [ends_changeTree]
  cases hf : f w.tree with
  | error e => exact hfail e hf
  | ok t => exact hgood t hf

end LintDebt.Workflow
