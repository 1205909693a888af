import LintDebt.Json.Value
import LintDebt.Number.Written
import LintDebt.Text.Quoted

/-! # Writing JSON

Two layouts. `compact` puts everything on one line and writes every unit outside printable ASCII as
an escape, so that the reader gets the same units back whatever they are. `indented` gives every
item and every field a line of its own, two spaces deeper than its parent, and leaves characters as
they are unless the format forbids it. -/

namespace LintDebt.Json

/-- The short or the numeric escape of a unit. -/
def unitEscape (u : UInt16) : List Char :=
  if u = 0x08 then ['\\', 'b']
  else if u = 0x09 then ['\\', 't']
  else if u = 0x0a then ['\\', 'n']
  else if u = 0x0c then ['\\', 'f']
  else if u = 0x0d then ['\\', 'r']
  else if u = 0x22 then ['\\', '"']
  else if u = 0x5c then ['\\', '\\']
  else '\\' :: 'u' :: Text.hexDigits u.toNat 4

def unitAscii (u : UInt16) : List Char :=
  if 0x20 ≤ u ∧ u ≤ 0x7e ∧ u ≠ 0x22 ∧ u ≠ 0x5c then [Char.ofNat u.toNat] else unitEscape u

/-- A string in printable ASCII. -/
def stringAscii (units : Text.Units) : List Char :=
  '"' :: units.flatMap unitAscii ++ ['"']

def charPlain (c : Char) : List Char :=
  if c.toNat < 0x20 ∨ c = '"' ∨ c = '\\' then unitEscape c.toNat.toUInt16 else [c]

/-- A string with its characters as they are. -/
def stringPlain (units : Text.Units) : List Char :=
  '"' :: (Text.ofUnits units).flatMap charPlain ++ ['"']

/-- How a layout writes strings, and what it puts before an item at a depth. -/
structure Layout where
  string : Text.Units → List Char
  comma : List Char
  lineStart : (depth : Nat) → List Char

def compact : Layout := ⟨stringAscii, [',', ' '], fun _ => []⟩

def indented : Layout := ⟨stringPlain, [','], fun depth => '\n' :: List.replicate (2 * depth) ' '⟩

/-- The words for the numbers without digits. -/
def numberWords : Binary64.Spelling := ⟨"Infinity", "NaN"⟩

mutual

/-- The text of a value at a depth. -/
def writeAt (layout : Layout) (depth : Nat) : Json → List Char
  | null => ['n', 'u', 'l', 'l']
  | bool true => ['t', 'r', 'u', 'e']
  | bool false => ['f', 'a', 'l', 's', 'e']
  | int n => intText n
  | float x => x.text numberWords
  | string units => layout.string units
  | array [] => ['[', ']']
  | array (item :: items) =>
    '[' :: layout.lineStart (depth + 1) ++ writeAt layout (depth + 1) item ++
      writeItems layout (depth + 1) items ++ layout.lineStart depth ++ [']']
  | object [] => ['{', '}']
  | object ((key, value) :: fields) =>
    '{' :: layout.lineStart (depth + 1) ++ layout.string key ++ [':', ' '] ++
      writeAt layout (depth + 1) value ++
      writeFields layout (depth + 1) fields ++ layout.lineStart depth ++ ['}']

/-- The items after the first. -/
def writeItems (layout : Layout) (depth : Nat) : List Json → List Char
  | [] => []
  | item :: items =>
    layout.comma ++ layout.lineStart depth ++ writeAt layout depth item ++
      writeItems layout depth items

/-- The fields after the first. -/
def writeFields (layout : Layout) (depth : Nat) : List (Text.Units × Json) → List Char
  | [] => []
  | (key, value) :: fields =>
    layout.comma ++ layout.lineStart depth ++ layout.string key ++ [':', ' '] ++
      writeAt layout depth value ++ writeFields layout depth fields

end

def write (layout : Layout) (value : Json) : String :=
  String.ofList (writeAt layout 0 value)

end LintDebt.Json
