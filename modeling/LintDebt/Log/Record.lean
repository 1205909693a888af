import LintDebt.ToolError

/-! # Log records

What the parts of the tool have to say while they work. A `Traced` computation collects records in
order and keeps them when it fails. -/

namespace LintDebt

namespace Log

inductive Level where
  | debug
  | info
  | warning
  | error
  | critical
  | other (number : Int)
  deriving DecidableEq, Repr

def Level.number : Level → Int
  | debug => 10
  | info => 20
  | warning => 30
  | error => 40
  | critical => 50
  | other n => n

def Level.ofNumber (n : Int) : Level :=
  (([.debug, .info, .warning, .error, .critical] : List Level).find? (·.number = n)).getD (.other n)

def Level.name : Level → String
  | debug => "DEBUG"
  | info => "INFO"
  | warning => "WARNING"
  | error => "ERROR"
  | critical => "CRITICAL"
  | other n => if n = 0 then "NOTSET" else s!"Level {n}"

/-- The parts of the tool that write records. -/
inductive Source where
  | ignoreList
  | query
  | linter
  | suppressions
  | workflows
  | commandLine
  deriving DecidableEq, Repr

def Source.name : Source → String
  | ignoreList => "slim.manifest"
  | query => "slim.violations"
  | linter => "slim.adapters.stylelint"
  | suppressions => "slim.suppressions"
  | workflows => "slim.workflows"
  | commandLine => "slim.cli"

structure Record where
  level : Level
  source : Source
  message : String
  deriving DecidableEq, Repr

end Log

/-- A result with the records written on the way to it. -/
structure Traced (ε α : Type) where
  log : List Log.Record
  result : Except ε α

namespace Traced

instance : Monad (Traced ε) where
  pure a := ⟨[], .ok a⟩
  bind x f := match x.result with
    | .ok a => ⟨x.log ++ (f a).log, (f a).result⟩
    | .error e => ⟨x.log, .error e⟩

def note (level : Log.Level) (source : Log.Source) (message : String) : Traced ε Unit :=
  ⟨[⟨level, source, message⟩], .ok ()⟩

/-- A computation that writes nothing. -/
def ofExcept (x : Except ε α) : Traced ε α := ⟨[], x⟩

end Traced
end LintDebt
