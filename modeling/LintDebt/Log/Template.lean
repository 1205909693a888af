import LintDebt.Log.Placeholder

/-! # Message templates

A template is a text with placeholders: a percent sign, the name of a field in parentheses, flags, a
least width, a point and a precision, a letter for a size that means nothing, and the letter of the
kind. All but the first and the last may be left out. Arguments are taken in order, also one for
every asterisk in place of a width or a precision. A lone object with fields is an argument and the
source of named fields as well. A doubled percent sign stands for itself, and a template without
arguments is the message. -/

namespace LintDebt.Log

/-- The arguments that are left, and the fields that names are looked up in. -/
structure Supply where
  rest : List Json
  fields : Option Json.Fields

def Supply.of (args : List Json) : Supply :=
  match args with
  | [.object (f :: fs)] => ⟨args, some (f :: fs)⟩
  | args => ⟨args, none⟩

/-- Filling a template uses arguments up. -/
abbrev Filling (α : Type) := StateT Supply (Except TemplateError) α

namespace Filling

def next : Filling Json := do
  match (← get).rest with
  | [] => throw .tooFewArguments
  | arg :: rest => do
    modify fun s => { s with rest }
    return arg

/-- The integer that an asterisk stands for. -/
def nextInteger : Filling Int := do
  match ← next with
  | .int n => return n
  | .bool b => return b.toInt
  | _ => throw .asteriskNeedsInteger

/-- Makes the value of a field the next argument and the only one. -/
def choose (name : List Char) : Filling Unit := do
  match (← get).fields with
  | none => throw .noMapping
  | some fields => match Json.Fields.get? fields (String.ofList name) with
    | none => throw (.missingKey (String.ofList name))
    | some value => modify fun s => { s with rest := [value] }

end Filling

/-- The name up to its closing parenthesis; parentheses inside it come in pairs. -/
def fieldName : (opened : Nat) → List Char → Option (List Char × List Char)
  | _, [] => none
  | opened, c :: rest =>
    if c = ')' ∧ opened = 0 then some ([], rest)
    else
      let opened := if c = '(' then opened + 1 else if c = ')' then opened - 1 else opened
      (fieldName opened rest).map fun (name, rest) => (c :: name, rest)

/-- Chooses a field if the placeholder names one. -/
def readName : List Char → Filling (List Char)
  | '(' :: rest => do
    if (← get).fields.isNone then throw .noMapping
    match fieldName 0 rest with
    | none => throw .incompleteKey
    | some (name, rest) => do
      Filling.choose name
      return rest
  | s => return s

def readFlags (f : Flags) : List Char → Flags × List Char
  | '-' :: rest => readFlags { f with left := true } rest
  | '+' :: rest => readFlags { f with signed := true } rest
  | ' ' :: rest => readFlags { f with blank := true } rest
  | '#' :: rest => readFlags { f with alternate := true } rest
  | '0' :: rest => readFlags { f with zeros := true } rest
  | s => (f, s)

def widthLimit : Nat := Nat.pow 2 63 - 1

def precisionLimit : Nat := Nat.pow 2 31 - 1

def readDigits (limit : Nat) (excess : TemplateError) (s : List Char) :
    Except TemplateError (Option Nat × List Char) :=
  match s.span Char.isDigit with
  | ([], _) => .ok (none, s)
  | (ds, rest) =>
    let n := Nat.ofDigitChars 10 ds 0
    if limit < n then .error excess else .ok (some n, rest)

/-- Reads the width. A negative one from the arguments puts the filling on the right; the least of
them has no counterpart among the widths and asks for nothing more. -/
def readWidth (f : Flags) : List Char → Filling (Flags × Nat × List Char)
  | '*' :: rest => do
    let n ← Filling.nextInteger
    if n < -(widthLimit : Int) - 1 ∨ widthLimit < n then throw (.asteriskTooLarge true)
    let width := if widthLimit < n.natAbs then 0 else n.natAbs
    return ({ f with left := f.left || n < 0 }, width, rest)
  | s => do
    let (width, rest) ← readDigits widthLimit .widthTooBig s
    return (f, width.getD 0, rest)

/-- Reads the precision after its point. A negative one from the arguments counts as zero. -/
def readPrecision : List Char → Filling (Option Nat × List Char)
  | '.' :: '*' :: rest => do
    let n ← Filling.nextInteger
    if n < -(precisionLimit : Int) - 1 ∨ precisionLimit < n then throw (.asteriskTooLarge false)
    return (some n.toNat, rest)
  | '.' :: rest => do
    let (precision, rest) ← readDigits precisionLimit .precisionTooBig rest
    return (some (precision.getD 0), rest)
  | s => return (none, s)

/-- Passes over the letter for a size. -/
def skipSize : List Char → List Char
  | 'h' :: rest | 'l' :: rest | 'L' :: rest => rest
  | s => s

/-- Reads a placeholder after its percent sign. -/
def readPlaceholder (s : List Char) : Filling (Placeholder × List Char) := do
  let (flags, s) := readFlags .none (← readName s)
  let (flags, width, s) ← readWidth flags s
  let (precision, s) ← readPrecision s
  match skipSize s with
  | [] => throw .incomplete
  | letter :: rest => return (⟨flags, width, precision, letter⟩, rest)

/-- What a placeholder becomes, with the text after it. `size` is the length of the template. -/
def fillOne (size : Nat) (s : List Char) : Filling (List Char × List Char) := do
  let (p, rest) ← readPlaceholder s
  let text ← p.render (size - rest.length - 1) (← Filling.next)
  let supply ← get
  if supply.fields.isSome && !supply.rest.isEmpty then throw .tooManyArguments
  return (text, rest)

/-- Fills the placeholders of a text of at most so many characters. -/
def fillFrom (size : Nat) : (bound : Nat) → List Char → Filling (List Char)
  | 0, _ => return []
  | _, [] => do
    let supply ← get
    if supply.fields.isNone && !supply.rest.isEmpty then throw .tooManyArguments
    return []
  | bound + 1, '%' :: '%' :: rest => ('%' :: ·) <$> fillFrom size bound rest
  | bound + 1, '%' :: rest => do
    let (text, rest) ← fillOne size rest
    return text ++ (← fillFrom size bound rest)
  | bound + 1, c :: rest => (c :: ·) <$> fillFrom size bound rest

/-- The message of a template. -/
def fill (template : String) (args : List Json) : Except TemplateError String :=
  match args with
  | [] => .ok template
  | args => do
    let s := template.toList
    let (text, _) ← (fillFrom s.length (s.length + 1) s).run (.of args)
    return String.ofList text

end LintDebt.Log
