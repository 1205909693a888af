import LintDebt.Json.Value
import LintDebt.Number.Written
import LintDebt.Text.Quoted

/-! # Values in messages

Messages show a value in a notation of their own: texts in quotes as everywhere in messages, the
words `None`, `True` and `False`, and brackets with a blank after every comma and colon. A message
that only gives an idea of a value cuts a long text in the middle. -/

namespace LintDebt.Json

/-- The words for the numbers without digits in messages. -/
def messageWords : Binary64.Spelling := ⟨"inf", "nan"⟩

mutual

/-- A value as a message shows it. -/
def shown : Json → String
  | null => "None"
  | bool true => "True"
  | bool false => "False"
  | int n => String.ofList (intText n)
  | float x => String.ofList (x.text messageWords)
  | string units => Text.quotedUnits units
  | array items => "[" ++ ", ".intercalate (shownItems items) ++ "]"
  | object fields => "\x7b" ++ ", ".intercalate (shownFields fields) ++ "\x7d"

def shownItems : List Json → List String
  | [] => []
  | item :: items => shown item :: shownItems items

def shownFields : List (Text.Units × Json) → List String
  | [] => []
  | (key, value) :: fields =>
    (Text.quotedUnits key ++ ": " ++ shown value) :: shownFields fields

end

def Kind.name : Kind → String
  | null => "NoneType"
  | bool => "bool"
  | int => "int"
  | float => "float"
  | string => "str"
  | array => "list"
  | object => "dict"

/-- The longest start of a text that takes at most so many octets. -/
def startWithin : (octets : Nat) → List Char → List Char
  | _, [] => []
  | octets, c :: rest =>
    if c.utf8Size ≤ octets then c :: startWithin (octets - c.utf8Size) rest else []

/-- A text of more than 50 octets without its middle: no more than 25 octets of its start and 24 of
its end stay. -/
def cutMiddle (s : String) : String :=
  if s.utf8ByteSize ≤ 50 then s
  else
    let last := (startWithin 24 s.toList.reverse).reverse
    String.ofList (startWithin 25 s.toList) ++ "..." ++ String.ofList last

/-- An idea of a value. -/
structure Glimpse where
  text : String
  kind : Kind
  deriving DecidableEq, Repr

def glimpse (value : Json) : Glimpse := ⟨cutMiddle value.shown, value.kind⟩

end LintDebt.Json
