import LintDebt.Fault
import LintDebt.Number.Rounded

/-! # Placeholders

A place in a message template that an argument fills: flags, a least width, a precision, and a
letter for the kind of value. `render` writes an argument the way a placeholder asks for. Texts are
cut to the precision; integers get so many digits at least; a floating point number is rounded. -/

namespace LintDebt.Log

/-- What may stand right after the percent sign, in any order. -/
structure Flags where
  left : Bool
  signed : Bool
  blank : Bool
  alternate : Bool
  zeros : Bool
  deriving DecidableEq, Repr

def Flags.none : Flags := ⟨false, false, false, false, false⟩

structure Placeholder where
  flags : Flags
  width : Nat
  precision : Option Nat
  letter : Char
  deriving DecidableEq, Repr

namespace Placeholder

/-- A text in parts: only what comes after the sign and the mark of the base is filled up. -/
structure Parts where
  sign : List Char
  mark : List Char
  body : List Char
  deriving DecidableEq, Repr

/-- Fills a text up to the width, at its left unless the flags say otherwise. -/
def pad (p : Placeholder) (zeros : Bool) (x : Parts) : List Char :=
  let missing := p.width - (x.sign.length + x.mark.length + x.body.length)
  if p.flags.left then x.sign ++ x.mark ++ x.body ++ List.replicate missing ' '
  else if zeros then x.sign ++ x.mark ++ List.replicate missing '0' ++ x.body
  else List.replicate missing ' ' ++ x.sign ++ x.mark ++ x.body

/-- A text, or as much of it as the precision allows. -/
def renderText (p : Placeholder) (s : List Char) : List Char :=
  let shown := match p.precision with
    | some most => s.take most
    | none => s
  p.pad false ⟨[], [], shown⟩

def signOf (p : Placeholder) (negative : Bool) : List Char :=
  if negative then ['-']
  else if p.flags.signed then ['+']
  else if p.flags.blank then [' ']
  else []

def upper (s : List Char) : List Char := s.map Char.toUpper

/-- A letter in upper case asks for all letters in upper case. -/
def cased (p : Placeholder) (s : List Char) : List Char :=
  if p.letter.isUpper then upper s else s

/-- The base that the letter stands for. -/
def base (p : Placeholder) : Nat :=
  if p.letter = 'o' then 8 else if p.letter = 'x' ∨ p.letter = 'X' then 16 else 10

def renderInteger (p : Placeholder) (n : Int) : List Char :=
  let digits := Binary64.zeroFilled (p.precision.getD 0) (Nat.toDigits p.base n.natAbs)
  let mark := if p.flags.alternate ∧ p.base ≠ 10 then ['0', p.letter] else []
  p.pad p.flags.zeros ⟨p.signOf (n < 0), mark, p.cased digits⟩

/-- A finite number without its sign. -/
def finiteText (p : Placeholder) (mantissa : Nat) (exponent : Int) : List Char :=
  let precision := p.precision.getD 6
  match p.letter.toLower with
  | 'f' => Binary64.fixedText p.flags.alternate precision mantissa exponent
  | 'e' => Binary64.exponentialText p.flags.alternate precision mantissa exponent
  | _ => Binary64.generalText p.flags.alternate precision mantissa exponent

def renderFloat (p : Placeholder) (x : Binary64) : List Char :=
  let (negative, text) := match x with
    | .finite negative mantissa exponent => (negative, p.finiteText mantissa exponent)
    | .infinite negative => (negative, ['i', 'n', 'f'])
    | .nan => (false, ['n', 'a', 'n'])
  p.pad p.flags.zeros ⟨p.signOf negative, [], p.cased text⟩

def plainText : Json → List Char
  | .string units => Text.ofUnits units
  | value => value.shown.toList

def integerOf (p : Placeholder) : Json → Except TemplateError Int
  | .int n => .ok n
  | .bool b => .ok b.toInt
  | .float x =>
    if p.base ≠ 10 then .error (.integerNeeded p.letter .float)
    else match x.truncate? with
      | some n => .ok n
      | none => .error (.noInteger (x matches .infinite _))
  | value =>
    if p.base ≠ 10 then .error (.integerNeeded p.letter value.kind)
    else .error (.numberNeeded p.letter value.kind)

def floatOf : Json → Except TemplateError Binary64
  | .float x => .ok x
  | .bool b => .ok (.ofQuotient false b.toNat 1)
  | .int n => match Binary64.ofQuotient (n < 0) n.natAbs 1 with
    | .infinite _ => .error .tooLarge
    | x => .ok x
  | value => .error (.realNeeded value.kind)

/-- An argument as a character, given by itself or by its number. -/
def characterOf : Json → Except TemplateError Char
  | .string units => match Text.points units with
    | [p] => .ok (p.char?.getD '\ufffd')
    | _ => .error .characterNeeded
  | .int n => if n < 0 ∨ 0x10ffff < n then .error .noCharacter else .ok (Char.ofNat n.toNat)
  | .bool b => .ok (Char.ofNat b.toNat)
  | _ => .error .characterNeeded

/-- Writes an argument; `index` is the place of the letter in the template. -/
def render (p : Placeholder) (index : Nat) (arg : Json) : Except TemplateError (List Char) :=
  match p.letter with
  | 's' => .ok (p.renderText (plainText arg))
  | 'r' => .ok (p.renderText arg.shown.toList)
  | 'a' => .ok (p.renderText (Text.asciiOnly arg.shown.toList))
  | 'd' | 'i' | 'u' | 'o' | 'x' | 'X' => p.renderInteger <$> p.integerOf arg
  | 'e' | 'E' | 'f' | 'F' | 'g' | 'G' => p.renderFloat <$> floatOf arg
  | 'c' => (fun c => p.pad false ⟨[], [], [c]⟩) <$> characterOf arg
  | c => .error (.unsupported c index)

end Placeholder
end LintDebt.Log
