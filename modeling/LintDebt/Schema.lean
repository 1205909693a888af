import LintDebt.Json.Shown
import LintDebt.Number.Numeral

/-! # Checking JSON values against a shape

A decoder turns a JSON value into a value of a domain type or lists all that is wrong with it, each
issue with the keys and indices that lead to it. Issues of different fields add up in the order in
which the fields are declared. Conversions are generous where nothing is lost: a truth value is 0 or
1, a text may spell a number, and a floating point number may stand for an integer it equals. -/

namespace LintDebt.Schema

inductive IssueKind where
  | missing
  | modelType (shape : String)
  | dictType
  | listType
  | stringType
  | stringUnicode
  | literal (words : List String)
  | boolType
  | boolParsing
  | intType
  | intParsing
  | intParsingSize
  | intFromFloat
  | finiteNumber
  deriving DecidableEq, Repr

def IssueKind.name : IssueKind → String
  | missing => "missing"
  | modelType _ => "model_type"
  | dictType => "dict_type"
  | listType => "list_type"
  | stringType => "string_type"
  | stringUnicode => "string_unicode"
  | literal _ => "literal_error"
  | boolType => "bool_type"
  | boolParsing => "bool_parsing"
  | intType => "int_type"
  | intParsing => "int_parsing"
  | intParsingSize => "int_parsing_size"
  | intFromFloat => "int_from_float"
  | finiteNumber => "finite_number"

/-- Quoted words, with `or` before the last one. -/
def choice (words : List String) : String :=
  match (words.map Text.quoted).reverse with
  | [] => ""
  | [word] => word
  | last :: before => ", ".intercalate before.reverse ++ " or " ++ last

def IssueKind.text : IssueKind → String
  | missing => "Field required"
  | modelType shape => s!"Input should be a valid dictionary or instance of {shape}"
  | dictType => "Input should be a valid dictionary"
  | listType => "Input should be a valid list"
  | stringType => "Input should be a valid string"
  | stringUnicode =>
    "Input should be a valid string, unable to parse raw data as a unicode string"
  | literal words => s!"Input should be {choice words}"
  | boolType => "Input should be a valid boolean"
  | boolParsing => "Input should be a valid boolean, unable to interpret input"
  | intType => "Input should be a valid integer"
  | intParsing => "Input should be a valid integer, unable to parse string as an integer"
  | intParsingSize => "Unable to parse input string as an integer, exceeded maximum size"
  | intFromFloat => "Input should be a valid integer, got a number with a fractional part"
  | finiteNumber => "Input should be a finite number"

/-- Where a kind of issue is explained. -/
def IssueKind.address (k : IssueKind) : String :=
  "/".intercalate ["https:", "", "errors.pydantic.dev", "2.14", "v", k.name]

/-- One step from a value to a part of it. -/
inductive Key where
  | field (name : String)
  | index (n : Nat)
  deriving DecidableEq, Repr

def Key.text : Key → String
  | field name => name
  | index n => toString n

structure Issue where
  kind : IssueKind
  place : List Key
  given : Json.Glimpse
  deriving DecidableEq, Repr

def Issue.of (kind : IssueKind) (value : Json) : Issue := ⟨kind, [], value.glimpse⟩

/-- The place on a line of its own, unless the issue is of the whole value, and then what is wrong
there. -/
def Issue.message (i : Issue) : String :=
  let place := if i.place.isEmpty then "" else ".".intercalate (i.place.map Key.text) ++ "\n"
  place ++ s!"  {i.kind.text} [type={i.kind.name}, input_value={i.given.text}, " ++
    s!"input_type={i.given.kind.name}]\n    For further information visit {i.kind.address}"

/-- All that keeps a value from having a shape. -/
structure Mismatch where
  shape : String
  issues : List Issue
  deriving DecidableEq, Repr

def Mismatch.message (m : Mismatch) : String :=
  let errors := if m.issues.length = 1 then "error" else "errors"
  s!"{m.issues.length} validation {errors} for {m.shape}\n" ++
    "\n".intercalate (m.issues.map Issue.message)

/-- A decoded value, or everything that kept it from being decoded. -/
inductive Checked (α : Type) where
  | good (a : α)
  | bad (issues : List Issue)
  deriving Repr

namespace Checked

def map (f : α → β) : Checked α → Checked β
  | good a => good (f a)
  | bad is => bad is

/-- Applies a checked function to a checked value; the issues of both add up. -/
def ap : Checked (α → β) → (Unit → Checked α) → Checked β
  | good f, x => (x ()).map f
  | bad is, x => match x () with
    | good _ => bad is
    | bad js => bad (is ++ js)

instance : Applicative Checked where
  pure := good
  seq := ap

/-- The issues seen from the value that holds this one. -/
def under (key : Key) : Checked α → Checked α
  | good a => good a
  | bad is => bad (is.map fun i => { i with place := key :: i.place })

/-- The value, or why it does not have a shape. -/
def toExcept (shape : String) : Checked α → Except Mismatch α
  | good a => .ok a
  | bad is => .error ⟨shape, is⟩

end Checked

abbrev Decoder (α : Type) := Json → Checked α

def fail (kind : IssueKind) (value : Json) : Checked α := .bad [.of kind value]

/-- The decoder for an object with fields of its own. -/
def model (shape : String) (build : Json.Fields → Checked α) : Decoder α
  | .object fields => build fields
  | value => fail (.modelType shape) value

/-- A field that may be left out. -/
def field (fields : Json.Fields) (name : String) (decode : Decoder α) (absent : α) : Checked α :=
  match fields.get? name with
  | none => .good absent
  | some value => (decode value).under (.field name)

def required (fields : Json.Fields) (name : String) (decode : Decoder α) : Checked α :=
  match fields.get? name with
  | none => (fail .missing (.object fields)).under (.field name)
  | some value => (decode value).under (.field name)

def checkedBy (convert : Json → Except IssueKind α) (value : Json) : Checked α :=
  match convert value with
  | .ok a => .good a
  | .error kind => fail kind value

/-- A string as it is, lone surrogates included. -/
def units : Decoder Text.Units
  | .string units => .good units
  | value => fail .stringType value

/-- A string in which U+FFFD stands for every lone surrogate. -/
def string : Decoder String
  | .string units => .good (Json.unitText units)
  | value => fail .stringType value

/-- The text of a string that is looked into, which may hold no lone surrogate. -/
def textOf (units : Text.Units) : Except IssueKind (List Char) :=
  match Text.ofUnits? units with
  | some s => .ok s
  | none => .error .stringUnicode

def oneOf (words : List (String × α)) : Decoder α := checkedBy fun
  | .string units => do
    match words.lookup (String.ofList (← textOf units)) with
    | some a => .ok a
    | none => .error (.literal (words.map Prod.fst))
  | _ => .error (.literal (words.map Prod.fst))

def orNull (decode : Decoder α) : Decoder (Option α)
  | .null => .good none
  | value => (decode value).map some

/-- Decodes the items from index `n` on. -/
def itemsFrom (decode : Decoder α) (n : Nat) : List Json → Checked (List α)
  | [] => .good []
  | item :: rest =>
    (·::·) <$> (decode item).under (.index n) <*> itemsFrom decode (n + 1) rest

def list (decode : Decoder α) : Decoder (List α)
  | .array items => itemsFrom decode 0 items
  | value => fail .listType value

def entries (decode : Decoder α) : Json.Fields → Checked (List (String × α))
  | [] => .good []
  | (units, value) :: rest =>
    let name := Json.unitText units
    (fun a more => (name, a) :: more) <$> (decode value).under (.field name) <*> entries decode rest

/-- An object with any keys. -/
def dict (decode : Decoder α) : Decoder (List (String × α))
  | .object fields => entries decode fields
  | value => fail .dictType value

/-- The integer that a text spells, or what is wrong with the text. -/
def intOfText (s : List Char) : Except IssueKind Int :=
  (Numeral.read s).mapError fun
    | .malformed => .intParsing
    | .tooLong => .intParsingSize

/-- One more than the greatest integer of 64 bits with a sign. -/
def wordBound : Nat := Nat.pow 2 63

/-- The integers that a floating point number may stand for. -/
def inFloatRange (n : Int) : Bool := n.natAbs < wordBound

/-- The integer that a floating point number equals. -/
def intOfFloat (x : Binary64) : Except IssueKind Int :=
  match x with
  | .finite .. => match x.toInt? with
    | none => .error .intFromFloat
    | some n => if inFloatRange n then .ok n else .error .intParsingSize
  | _ => .error .finiteNumber

def int : Decoder Int := checkedBy fun
  | .int n => .ok n
  | .bool b => .ok (if b then 1 else 0)
  | .float x => intOfFloat x
  | .string units => do intOfText (← textOf units)
  | _ => .error .intType

def trueWords : List String := ["1", "on", "t", "true", "y", "yes"]

def falseWords : List String := ["0", "off", "f", "false", "n", "no"]

def boolOfText (s : List Char) : Except IssueKind Bool :=
  let word := String.ofList (s.map Char.toLower)
  if word ∈ trueWords then .ok true
  else if word ∈ falseWords then .ok false
  else .error .boolParsing

/-- The truth value of an integer; `small` tells whether others than 0 and 1 are looked at. -/
def boolOfInt (n : Int) (small : Bool) : Except IssueKind Bool :=
  if n = 0 then .ok false
  else if n = 1 then .ok true
  else .error (if small then .boolParsing else .boolType)

def bool : Decoder Bool := checkedBy fun
  | .bool b => .ok b
  | .int n => boolOfInt n (-(wordBound : Int) ≤ n ∧ n < wordBound)
  | .float x => match x.toInt? with
    | some n => boolOfInt n (inFloatRange n)
    | none => .error .boolType
  | .string units => do boolOfText (← textOf units)
  | _ => .error .boolType

end LintDebt.Schema
