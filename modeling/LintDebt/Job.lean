import LintDebt.Log.Record

/-! # Jobs

A job runs in a world: a file tree, the state of whatever it talks to, and the log so far. It ends
with a result or a failure, and what it did to the world stays done in both cases. -/

namespace LintDebt

structure World (σ : Type) where
  tree : FileTree
  state : σ
  log : List Log.Record

abbrev Job (σ α : Type) := ExceptT Failure (StateM (World σ)) α

namespace Job

def tree : Job σ FileTree := do return (← get).tree

def setTree (t : FileTree) : Job σ Unit := modify fun w => { w with tree := t }

def writeLog (records : List Log.Record) : Job σ Unit :=
  modify fun w => { w with log := w.log ++ records }

def note (level : Log.Level) (source : Log.Source) (message : String) : Job σ Unit :=
  writeLog [⟨level, source, message⟩]

/-- A result or a failure that needs nothing of the world. -/
def ofExcept (x : Except Failure α) : Job σ α := ExceptT.mk (pure x)

/-- A result with the records on the way to it. -/
def ofTraced (x : Traced Failure α) : Job σ α := do
  writeLog x.log
  ofExcept x.result

def changeTree (f : FileTree → Except Failure FileTree) : Job σ Unit := do
  setTree (← ofExcept (f (← tree)))

/-- Runs a job and tells how it ended. -/
def observe (x : Job σ α) : Job σ (Except Failure α) := ExceptT.mk (.ok <$> x.run)

end Job
end LintDebt
