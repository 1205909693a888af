import LintDebt.Proofs.Ending
import LintDebt.Workflow.Compress
import LintDebt.Workflow.Eliminate

/-! # The calls of a run

What a run asks of its linter, call by call. A linter is watched by keeping a record of its calls
beside its own state; the watched run does what the plain run does (`mirrors_job`), so that its
record tells what the plain run asked. Nothing is said here about what a linter answers. -/

namespace LintDebt

/-- One call of a linter: what it was asked, how it ended, and the tree before and after it. -/
structure Call where
  config : Json.Fields
  files : List String
  before : FileTree
  answer : Except Failure (List Report)
  after : FileTree

/-- A linter that keeps a record of its calls. -/
def Linter.watched (l : Linter σ) : Linter (σ × List Call) where
  lint config files := ExceptT.mk fun w =>
    let (answer, w') := (l.lint config files).runFrom ⟨w.tree, w.state.1, w.log⟩
    (answer, ⟨w'.tree, (w'.state, w.state.2 ++ [⟨config, files, w.tree, answer, w'.tree⟩]), w'.log⟩)

namespace World

/-- The world with another view of its state. -/
def map (f : σ → τ) (w : World σ) : World τ := ⟨w.tree, f w.state, w.log⟩

/-- The world in which a watched run starts. -/
def watched (w : World σ) : World (σ × List Call) := w.map (·, [])

end World

namespace Job

variable {σ τ α β : Type} {h : τ → σ} {x : Job τ α} {y : Job σ α}

/-- Holds if the second job does what the first one does, and sees of its state what `h` keeps. -/
def Mirrors (h : τ → σ) (x : Job τ α) (y : Job σ α) : Prop :=
  ∀ w, y.runFrom (w.map h) = ((x.runFrom w).1, (x.runFrom w).2.map h)

namespace Mirrors

theorem pure (a : α) : Mirrors h (Pure.pure a) (Pure.pure a) := fun _ => rfl

theorem throw (e : Failure) : Mirrors (α := α) h (MonadExcept.throw e) (MonadExcept.throw e) :=
  fun _ => rfl

theorem tree : Mirrors h Job.tree Job.tree := fun _ => rfl

theorem ofExcept (r : Except Failure α) : Mirrors h (Job.ofExcept r) (Job.ofExcept r) :=
  fun _ => rfl

theorem writeLog (records : List Log.Record) :
    Mirrors h (Job.writeLog records) (Job.writeLog records) :=
  fun _ => rfl

theorem bind {f : α → Job τ β} {g : α → Job σ β} (hxy : Mirrors h x y)
    (hf : ∀ a, Mirrors h (f a) (g a)) : Mirrors h (x >>= f) (y >>= g) := by
  intro w
  rw [runFrom_bind, runFrom_bind, hxy w]
  rcases x.runFrom w with ⟨_ | a, w'⟩
  · rfl
  · exact hf a w'

theorem observe (hxy : Mirrors h x y) : Mirrors h x.observe y.observe := by
  intro w
  rw [runFrom_observe, runFrom_observe, hxy w]

theorem note (level : Log.Level) (source : Log.Source) (message : String) :
    Mirrors h (Job.note level source message) (Job.note level source message) :=
  writeLog _

theorem ofTraced (r : Traced Failure α) : Mirrors h (Job.ofTraced r) (Job.ofTraced r) :=
  (writeLog _).bind fun _ => ofExcept _

theorem changeTree (f : FileTree → Except Failure FileTree) :
    Mirrors h (Job.changeTree f) (Job.changeTree f) := by
  intro w
  have htree : (w.map h).tree = w.tree := rfl
  rw [runFrom_changeTree, runFrom_changeTree, htree]
  cases f w.tree <;> rfl

end Mirrors
end Job

open Job

variable {σ τ : Type} {h : τ → σ} {l : Linter σ} {s : Settings} {base : Path}

namespace Query

theorem mirrors_lint (config : Json.Fields) (files : List String) :
    Mirrors Prod.fst (l.watched.lint config files) (l.lint config files) :=
  fun _ => rfl

theorem mirrors_whileHidden {x : Job τ α} {y : Job σ α} (p : Path) (hxy : Mirrors h x y) :
    Mirrors h (whileHidden p x) (whileHidden p y) := by
  refine Mirrors.tree.bind fun t => (Mirrors.ofExcept _).bind fun found => ?_
  cases found
  · exact hxy
  · refine (Mirrors.ofExcept _).bind fun hidden => (Mirrors.changeTree _).bind fun _ => ?_
    refine (Mirrors.note _ _ _).bind fun _ => hxy.observe.bind fun result => ?_
    exact (Mirrors.changeTree _).bind fun _ => Mirrors.ofExcept _

theorem mirrors_violations (config : Json.Fields) (files : List Path) (list : Path) :
    Mirrors Prod.fst (violations l.watched config files list) (violations l config files list) := by
  unfold violations
  split
  · exact Mirrors.pure _
  · exact mirrors_whileHidden list ((mirrors_lint config _).observe.bind fun _ =>
      Mirrors.ofExcept _)

end Query

namespace Workflow

theorem mirrors_stage {x : Job τ α} {y : Job σ α} {f : α → Job τ Outcome} {g : α → Job σ Outcome}
    (o : Outcome) (doing : String) (hxy : Mirrors h x y) (hf : ∀ a, Mirrors h (f a) (g a)) :
    Mirrors h (stage o doing x f) (stage o doing y g) := by
  refine hxy.observe.bind fun r => ?_
  rcases r with (e | f) | a
  · exact (Mirrors.note _ _ _).bind fun _ => Mirrors.pure _
  · exact Mirrors.throw _
  · exact hf a

theorem mirrors_readConfig :
    Mirrors h (readConfig s base) (readConfig s base) :=
  Mirrors.tree.bind fun _ => Mirrors.ofExcept _

theorem mirrors_readList : Mirrors h (readList s base) (readList s base) :=
  Mirrors.tree.bind fun _ => Mirrors.ofTraced _

theorem mirrors_measure (p : Path) : Mirrors h (measure p) (measure p) :=
  Mirrors.tree.bind fun _ => Mirrors.ofExcept _

theorem mirrors_judge (config : Json.Fields) (e : IgnoreList.Entry) :
    Mirrors Prod.fst (judge l.watched s base config e) (judge l s base config e) := by
  refine (Query.mirrors_violations config _ _).bind fun reports => Mirrors.tree.bind fun t => ?_
  refine (Mirrors.ofExcept _).bind fun located => (Mirrors.ofExcept _).bind fun errored => ?_
  exact Mirrors.pure _

theorem mirrors_examine (config : Json.Fields) (doing : String)
    {f : Examined → Job (σ × List Call) Outcome} {g : Examined → Job σ Outcome}
    (hf : ∀ x, Mirrors Prod.fst (f x) (g x)) (entries : List IgnoreList.Entry) (x : Examined) :
    Mirrors Prod.fst (examine l.watched s base config doing f x entries)
      (examine l s base config doing g x entries) := by
  induction entries generalizing x with
  | nil => exact hf x
  | cons e rest ih =>
    refine mirrors_stage _ _ (mirrors_judge config e) fun v => ?_
    dsimp only
    split
    · exact (Mirrors.note _ _ _).bind fun _ => ih _
    · exact ih _

theorem mirrors_compress :
    Mirrors Prod.fst (compress l.watched s base) (compress l s base) := by
  refine mirrors_stage _ _ (mirrors_measure _) fun stats => ?_
  refine mirrors_stage _ _ mirrors_readConfig fun config => ?_
  refine mirrors_stage _ _ (Mirrors.tree.bind fun _ => Mirrors.ofExcept _) fun lines => ?_
  refine mirrors_stage _ _ mirrors_readList fun m => ?_
  refine mirrors_stage _ _ (Mirrors.tree.bind fun _ => Mirrors.ofTraced _) fun m => ?_
  refine mirrors_examine _ _ (fun x => ?_) _ _
  refine mirrors_stage _ _ (Mirrors.changeTree _) fun _ => ?_
  refine mirrors_stage _ _ (Query.mirrors_violations _ _ _) fun remaining => ?_
  exact mirrors_stage _ _ (mirrors_measure _) fun stats => Mirrors.pure _

theorem mirrors_writeText (p : Path) (text : Text.Units) :
    Mirrors h (writeText p text) (writeText p text) := by
  unfold writeText
  split
  · exact Mirrors.changeTree _
  · exact (Mirrors.changeTree _).bind fun _ => Mirrors.throw _

theorem mirrors_annotate (p : Path) (plan : Suppression.Plan) (style : Suppression.Style) :
    Mirrors h (annotate p plan style) (annotate p plan style) := by
  unfold annotate
  split
  · exact Mirrors.pure _
  · refine Mirrors.tree.bind fun t => (Mirrors.ofExcept _).bind fun lines => ?_
    refine (Mirrors.ofExcept _).bind fun updated => (mirrors_writeText _ _).bind fun _ => ?_
    exact (Mirrors.note _ _ _).bind fun _ => Mirrors.pure _

theorem mirrors_annotateReport (style : Suppression.Style) (o : Outcome) (r : Report) :
    Mirrors h (annotateReport base style o r) (annotateReport base style o r) := by
  refine Mirrors.tree.bind fun t => (Mirrors.ofExcept _).bind fun p => ?_
  refine (mirrors_annotate p _ style).observe.bind fun result => ?_
  rcases result with (e | f) | added
  · exact (Mirrors.note _ _ _).bind fun _ => Mirrors.pure _
  · exact Mirrors.throw _
  · exact Mirrors.pure _

theorem mirrors_annotateAll (style : Suppression.Style) (o : Outcome) (reports : List Report) :
    Mirrors h (annotateAll base style o reports) (annotateAll base style o reports) := by
  unfold annotateAll
  generalize reports.filter Report.errored = failing
  induction failing generalizing o with
  | nil => exact Mirrors.pure _
  | cons r rest ih =>
    rw [List.foldlM_cons, List.foldlM_cons]
    exact (mirrors_annotateReport style o r).bind fun o => ih o

theorem mirrors_survey : Mirrors Prod.fst (survey l.watched s base) (survey l s base) := by
  refine mirrors_readConfig.bind fun config => mirrors_readList.bind fun m => ?_
  refine Mirrors.tree.bind fun t => (Mirrors.ofTraced _).bind fun files => ?_
  exact (Query.mirrors_violations _ _ _).bind fun reports => Mirrors.pure _

theorem mirrors_recount (config : Json.Fields) (files : List Path) (list : Path) (o : Outcome) :
    Mirrors Prod.fst (recount l.watched config files list o) (recount l config files list o) := by
  refine (Query.mirrors_violations _ _ _).observe.bind fun result => ?_
  rcases result with (e | f) | after
  · exact (Mirrors.note _ _ _).bind fun _ => Mirrors.pure _
  · exact Mirrors.throw _
  · exact Mirrors.pure _

theorem mirrors_eliminate (style : Suppression.Style) :
    Mirrors Prod.fst (eliminate l.watched s base style) (eliminate l s base style) := by
  refine mirrors_stage _ _ mirrors_survey fun (config, files, reports) => ?_
  refine (mirrors_annotateAll _ _ _).bind fun o => ?_
  split
  · exact mirrors_stage _ _ (Mirrors.changeTree _) fun _ => mirrors_recount _ _ _ _
  · exact (Mirrors.note _ _ _).bind fun _ => mirrors_recount _ _ _ _

/-- The two things that the tool does to an ignore list. -/
inductive Task where
  | compress
  | eliminate (style : Suppression.Style)

namespace Task

def job (l : Linter σ) (s : Settings) (base : Path) : Task → Job σ Outcome
  | compress => Workflow.compress l s base
  | eliminate style => Workflow.eliminate l s base style

/-- The calls of a run, in their order. -/
def calls (task : Task) (l : Linter σ) (s : Settings) (base : Path) (w : World σ) : List Call :=
  ((task.job l.watched s base).runFrom w.watched).2.state.2

theorem mirrors_job (task : Task) : Mirrors Prod.fst (task.job l.watched s base) (task.job l s base) := by
  cases task with
  | compress => exact mirrors_compress
  | eliminate style => exact mirrors_eliminate style

/-- What holds of the watched run holds of the plain run and its calls. -/
theorem of_watched (task : Task) (l : Linter σ) (s : Settings) (base : Path) (w : World σ)
    {P : Except Failure Outcome → FileTree → List Call → Prop}
    (h : (task.job l.watched s base).Ends w.watched fun r t x => P r t x.2) :
    P ((task.job l s base).runFrom w).1 ((task.job l s base).runFrom w).2.tree
      (task.calls l s base w) := by
  rw [show w = w.watched.map Prod.fst from rfl, mirrors_job task w.watched]
  exact h

end Task
end Workflow
end LintDebt
