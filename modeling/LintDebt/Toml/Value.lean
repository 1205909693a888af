import LintDebt.Json.Value

/-! # TOML values

A document is a table. Dates and times are checked when they are read and kept as a kind only: no
setting is one. `toJson` shows a document to a decoder. -/

namespace LintDebt

inductive Toml where
  | text (s : String)
  | integer (n : Int)
  | float (x : Binary64)
  | boolean (b : Bool)
  | moment
  | array (items : List Toml)
  | table (entries : List (String × Toml))
  deriving Repr, Inhabited

namespace Toml

abbrev Table := List (String × Toml)

abbrev Key := List String

inductive Error where
  | malformed
  | tooManyDigits (digits : Nat)
  | tooDeep
  deriving DecidableEq, Repr

def Table.has (t : Table) (name : String) : Bool := t.any (·.1 == name)

/-- Replaces the value of a name that is there. -/
def Table.replace (t : Table) (name : String) (value : Toml) : Table :=
  t.map fun e => if e.1 == name then (name, value) else e

/-- Changes the table behind a key. Tables that are missing on the way are made. With
`throughArrays` the way leads on through the last item of an array. -/
def Table.modify (throughArrays : Bool) (f : Table → Except Error Table) :
    Key → Table → Except Error Table
  | [], t => f t
  | name :: key, t =>
    match t.lookup name with
    | none => do
      let inner ← Table.modify throughArrays f key []
      return t ++ [(name, .table inner)]
    | some (.table inner) => do
      let inner ← Table.modify throughArrays f key inner
      return Table.replace t name (.table inner)
    | some (.array items) =>
      match throughArrays, items.getLast? with
      | true, some (.table inner) => do
        let inner ← Table.modify throughArrays f key inner
        return Table.replace t name (.array (items.dropLast ++ [.table inner]))
      | _, _ => .error .malformed
    | some _ => .error .malformed

/-- Adds a value under a name that is not there yet. -/
def Table.add (name : String) (value : Toml) (t : Table) : Except Error Table :=
  if t.has name then .error .malformed else .ok (t ++ [(name, value)])

/-- Adds an empty table to the array under a name. -/
def Table.extend (name : String) (t : Table) : Except Error Table :=
  match t.lookup name with
  | none => .ok (t ++ [(name, .array [.table []])])
  | some (.array items) => .ok (t.replace name (.array (items ++ [.table []])))
  | some _ => .error .malformed

mutual

/-- The JSON value with the same shape; a date or time, which JSON lacks, becomes null. -/
def toJson : Toml → Json
  | text s => .text s
  | integer n => .int n
  | float x => .float x
  | boolean b => .bool b
  | moment => .null
  | array items => .array (itemsToJson items)
  | table entries => .object (entriesToJson entries)

def itemsToJson : List Toml → List Json
  | [] => []
  | item :: items => toJson item :: itemsToJson items

def entriesToJson : List (String × Toml) → List (Text.Units × Json)
  | [] => []
  | (name, value) :: entries => (Text.unitsOf name, toJson value) :: entriesToJson entries

end

end Toml
end LintDebt
