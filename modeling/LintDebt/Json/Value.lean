import LintDebt.Number.Binary64
import LintDebt.Text.Units

/-! # JSON values

Objects keep the order of their fields. Integers of any size stay apart from floating point
numbers. A string is a sequence of UTF-16 units, which is what the escapes of the format spell: it
may hold a surrogate without its partner. -/

namespace LintDebt

inductive Json where
  | null
  | bool (b : Bool)
  | int (n : Int)
  | float (x : Binary64)
  | string (units : Text.Units)
  | array (items : List Json)
  | object (fields : List (Text.Units × Json))
  deriving Repr, Inhabited

namespace Json

def text (s : String) : Json := .string (Text.unitsOf s)

def unitText (units : Text.Units) : String := String.ofList (Text.ofUnits units)

abbrev Fields := List (Text.Units × Json)

/-- Fields with texts for keys. -/
def Fields.ofNamed (named : List (String × Json)) : Fields :=
  named.map fun (name, value) => (Text.unitsOf name, value)

def Fields.get? (fields : Fields) (key : String) : Option Json :=
  fields.lookup (Text.unitsOf key)

/-- Sets a field: a key that is there keeps its place, a new one goes to the end. -/
def Fields.put (fields : Fields) (key : Text.Units) (value : Json) : Fields :=
  if fields.any (·.1 == key) then fields.map fun f => if f.1 == key then (key, value) else f
  else fields ++ [(key, value)]

/-- The fields that a text lists in the given order: a repeated key has its last value in its first
place. -/
def Fields.ofListed (listed : List (Text.Units × Json)) : Fields :=
  listed.foldl (fun fields f => fields.put f.1 f.2) []

inductive Kind where
  | null | bool | int | float | string | array | object
  deriving DecidableEq, Repr

def kind : Json → Kind
  | null => .null
  | bool _ => .bool
  | int _ => .int
  | float _ => .float
  | string _ => .string
  | array _ => .array
  | object _ => .object

/-- A value that counts as present: not null, false, zero or empty. -/
def truthy : Json → Bool
  | null => false
  | bool b => b
  | int n => n ≠ 0
  | float (.finite _ m _) => m ≠ 0
  | float _ => true
  | string units => !units.isEmpty
  | array items => !items.isEmpty
  | object fields => !fields.isEmpty

end Json
end LintDebt
