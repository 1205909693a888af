import LintDebt.Fault

/-! # Suppression comments

A comment tells the linter to turn rules off, to turn them on again, or to leave them out on the
line that follows. The block style puts a pair of comments around a range, the next-line style one
comment above a line. -/

namespace LintDebt.Suppression

inductive Style where
  | block
  | nextLine
  deriving DecidableEq, Repr

def Style.text : Style → String
  | block => "block"
  | nextLine => "next-line"

def Style.words : List (String × Style) := [(block.text, block), (nextLine.text, nextLine)]

def Style.ofJson (value : Json) : Except Fault Style :=
  let named := match value with
    | .string units => (Text.ofUnits? units).bind fun s => Style.words.lookup (String.ofList s)
    | _ => none
  match named with
  | some style => .ok style
  | none => .error (.unknownStyle value.shown)

inductive Command where
  | disable
  | enable
  | disableNextLine
  deriving DecidableEq, Repr

def Command.text : Command → String
  | disable => "disable"
  | enable => "enable"
  | disableNextLine => "disable-next-line"

structure Comment where
  command : Command
  rules : List Text.Units
  deriving DecidableEq, Repr

/-- The line that gives a command for rules. -/
def commentLine (command : String) (rules : List Text.Units) : Text.Units :=
  Text.unitsOf s!"/* stylelint-{command} " ++ (Text.unitsOf ",").intercalate rules ++
    Text.unitsOf " */"

def Comment.text (c : Comment) : Text.Units := commentLine c.command.text c.rules

end LintDebt.Suppression
