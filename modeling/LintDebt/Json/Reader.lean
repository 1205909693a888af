import LintDebt.Json.Value

/-! # Reading JSON

The reader takes the standard grammar and, besides, `NaN`, `Infinity` and `-Infinity`. It stops at
the first place where the text cannot go on, and names what was expected there. An integer of more
than `digitLimit` digits and an array or object more than `nestingLimit` deep are refused where they
begin, before anything that follows is looked at.

Inside, a place is the number of characters from it to the end of the text. The first argument of
the recursive readers bounds the depth of the recursion; two steps for each character are always
enough. The second one is the number of levels that arrays and objects may still go down. -/

namespace LintDebt.Json

/-- What was wrong with a text. -/
inductive Expected where
  | value
  | propertyName
  | colon
  | comma
  | noMore
  | printable
  | closingQuote
  | hexEscape
  | escape
  | noMark
  deriving DecidableEq, Repr

def digitLimit : Nat := 4300

/-- The most arrays and objects that may be open at once. Every one takes a nested call, and the calls
that led to the reader count as well: the limit depends on how deep the caller is, and this is it for a
caller that is only a few calls deep. -/
def nestingLimit : Nat := 989

/-- Why the reading stopped, `left` characters before the end. -/
inductive Stop where
  | expecting (what : Expected) (left : Nat)
  | tooManyDigits (digits : Nat)
  | tooDeep (kind : Kind)
  deriving DecidableEq, Repr

abbrev Step (α : Type) := Except Stop (α × List Char)

def isWhite (c : Char) : Bool := c = ' ' || c = '\t' || c = '\n' || c = '\r'

def skipWhite (s : List Char) : List Char := s.dropWhile isWhite

def hexValue? (c : Char) : Option Nat :=
  if '0' ≤ c ∧ c ≤ '9' then some (c.toNat - '0'.toNat)
  else if 'a' ≤ c ∧ c ≤ 'f' then some (c.toNat - 'a'.toNat + 10)
  else if 'A' ≤ c ∧ c ≤ 'F' then some (c.toNat - 'A'.toNat + 10)
  else none

/-- The unit that four hexadecimal digits spell. -/
def hexUnit? (a b c d : Char) : Option UInt16 := do
  let a ← hexValue? a
  let b ← hexValue? b
  let c ← hexValue? c
  let d ← hexValue? d
  return (((a * 16 + b) * 16 + c) * 16 + d).toUInt16

def escape? : Char → Option Char
  | '"' => some '"'
  | '\\' => some '\\'
  | '/' => some '/'
  | 'b' => some '\x08'
  | 'f' => some '\x0c'
  | 'n' => some '\n'
  | 'r' => some '\r'
  | 't' => some '\t'
  | _ => none

/-- Reads a string after its opening quote, from which on the text is `opening`. -/
def string? (opening : List Char) : List Char → Step (Text.Units)
  | [] => .error (.expecting .closingQuote opening.length)
  | '"' :: rest => .ok ([], rest)
  | ['\\'] => .error (.expecting .closingQuote opening.length)
  | '\\' :: 'u' :: a :: b :: c :: d :: next :: rest =>
    match hexUnit? a b c d with
    | none => .error (.expecting .hexEscape (rest.length + 6))
    | some unit => (string? opening (next :: rest)).map fun (units, rest) => (unit :: units, rest)
  | '\\' :: 'u' :: rest => .error (.expecting .hexEscape (rest.length + 1))
  | '\\' :: c :: rest =>
    match escape? c with
    | none => .error (.expecting .escape (rest.length + 2))
    | some c => (string? opening rest).map fun (units, rest) => (Text.charUnits c ++ units, rest)
  | c :: rest =>
    if c.toNat < 0x20 then .error (.expecting .printable (rest.length + 1))
    else (string? opening rest).map fun (units, rest) => (Text.charUnits c ++ units, rest)

def digitsValue (ds : List Char) : Nat := Nat.ofDigitChars 10 ds 0

/-- The digits of an integer part: one zero, or digits that do not begin with zero. -/
def integerPart (s : List Char) : List Char × List Char :=
  match s with
  | '0' :: rest => (['0'], rest)
  | s => s.span Char.isDigit

def fractionPart (s : List Char) : List Char × List Char :=
  match s with
  | '.' :: rest =>
    match rest.span Char.isDigit with
    | ([], _) => ([], s)
    | found => found
  | s => ([], s)

def exponentPart (s : List Char) : Option Int × List Char :=
  let digits (sign : Int) (rest : List Char) : Option Int × List Char :=
    match rest.span Char.isDigit with
    | ([], _) => (none, s)
    | (ds, rest) => (some (sign * digitsValue ds), rest)
  match s with
  | 'e' :: '-' :: rest | 'E' :: '-' :: rest => digits (-1) rest
  | 'e' :: '+' :: rest | 'E' :: '+' :: rest => digits 1 rest
  | 'e' :: rest | 'E' :: rest => digits 1 rest
  | s => (none, s)

/-- Reads a number; `none` when the text does not begin with one. -/
def number? (s : List Char) : Option (Except Stop (Json × List Char)) :=
  let (negative, unsigned) := match s with
    | '-' :: rest => (true, rest)
    | s => (false, s)
  match integerPart unsigned with
  | ([], _) => none
  | (whole, rest) =>
    let (fraction, rest) := fractionPart rest
    let (exponent, rest) := exponentPart rest
    some <|
      if fraction.isEmpty && exponent.isNone then
        if digitLimit < whole.length then .error (.tooManyDigits whole.length)
        else
          let n : Int := digitsValue whole
          .ok (.int (if negative then -n else n), rest)
      else
        let digits := digitsValue (whole ++ fraction)
        .ok (.float (.ofDecimal negative digits (exponent.getD 0 - fraction.length)), rest)

/-- Reads a word that stands for a value. -/
def word? : List Char → Option (Json × List Char)
  | 'n' :: 'u' :: 'l' :: 'l' :: rest => some (.null, rest)
  | 't' :: 'r' :: 'u' :: 'e' :: rest => some (.bool true, rest)
  | 'f' :: 'a' :: 'l' :: 's' :: 'e' :: rest => some (.bool false, rest)
  | 'N' :: 'a' :: 'N' :: rest => some (.float .nan, rest)
  | 'I' :: 'n' :: 'f' :: 'i' :: 'n' :: 'i' :: 't' :: 'y' :: rest =>
    some (.float (.infinite false), rest)
  | '-' :: 'I' :: 'n' :: 'f' :: 'i' :: 'n' :: 'i' :: 't' :: 'y' :: rest =>
    some (.float (.infinite true), rest)
  | _ => none

/-- Reads a value that is neither a string nor an array nor an object. -/
def scalar? (s : List Char) : Step Json :=
  match word? s with
  | some found => .ok found
  | none => (number? s).getD (.error (.expecting .value s.length))

mutual

def value? : Nat → (room : Nat) → List Char → Step Json
  | 0, _, s => .error (.expecting .value s.length)
  | depth + 1, room, s =>
    match s, room with
    | '"' :: rest, _ => (string? s rest).map fun (units, rest) => (.string units, rest)
    | '[' :: _, 0 => .error (.tooDeep .array)
    | '[' :: rest, room + 1 =>
      match skipWhite rest with
      | ']' :: rest => .ok (.array [], rest)
      | rest => (items? depth room rest).map fun (items, rest) => (.array items, rest)
    | '{' :: _, 0 => .error (.tooDeep .object)
    | '{' :: rest, room + 1 =>
      match skipWhite rest with
      | '}' :: rest => .ok (.object [], rest)
      | rest =>
        (fields? depth room rest).map fun (listed, rest) => (.object (Fields.ofListed listed), rest)
    | s, _ => scalar? s

def items? : Nat → (room : Nat) → List Char → Except Stop (List Json × List Char)
  | 0, _, s => .error (.expecting .value s.length)
  | depth + 1, room, s => do
    let (item, rest) ← value? depth room s
    match skipWhite rest with
    | ']' :: rest => .ok ([item], rest)
    | ',' :: rest =>
      let (items, rest) ← items? depth room (skipWhite rest)
      .ok (item :: items, rest)
    | rest => .error (.expecting .comma rest.length)

def fields? : Nat → (room : Nat) → List Char → Except Stop (Fields × List Char)
  | 0, _, s => .error (.expecting .propertyName s.length)
  | depth + 1, room, s => do
    match s with
    | '"' :: rest =>
      let (key, rest) ← string? s rest
      match skipWhite rest with
      | ':' :: rest =>
        let (value, rest) ← value? depth room (skipWhite rest)
        match skipWhite rest with
        | '}' :: rest => .ok ([(key, value)], rest)
        | ',' :: rest =>
          let (fields, rest) ← fields? depth room (skipWhite rest)
          .ok ((key, value) :: fields, rest)
        | rest => .error (.expecting .comma rest.length)
      | rest => .error (.expecting .colon rest.length)
    | s => .error (.expecting .propertyName s.length)

end

/-- Reads a text that holds one value. -/
def document? (s : List Char) : Except Stop Json := do
  if s.head? = some '\ufeff' then .error (.expecting .noMark s.length)
  let (value, rest) ← value? (2 * s.length + 2) nestingLimit (skipWhite s)
  match skipWhite rest with
  | [] => .ok value
  | rest => .error (.expecting .noMore rest.length)

/-- A place in a text, counted in characters from zero; line and column count from one. -/
structure SyntaxError where
  expected : Expected
  line : Nat
  column : Nat
  position : Nat
  deriving DecidableEq, Repr

/-- The error at a place of a text. -/
def SyntaxError.at (expected : Expected) (s : List Char) (position : Nat) : SyntaxError :=
  let before := s.take position
  ⟨expected, before.count '\n' + 1, (before.reverse.takeWhile (· ≠ '\n')).length + 1, position⟩

inductive ReadError where
  | malformed (e : SyntaxError)
  | tooManyDigits (digits : Nat)
  | tooDeep (kind : Kind)
  deriving DecidableEq, Repr

/-- Reads a text that holds one value, with the place of the error. -/
def parse (s : String) : Except ReadError Json :=
  let chars := s.toList
  match document? chars with
  | .ok value => .ok value
  | .error (.tooManyDigits n) => .error (.tooManyDigits n)
  | .error (.tooDeep kind) => .error (.tooDeep kind)
  | .error (.expecting expected left) =>
    .error (.malformed (.at expected chars (chars.length - left)))

def Expected.message : Expected → String
  | value => "Expecting value"
  | propertyName => "Expecting property name enclosed in double quotes"
  | colon => "Expecting ':' delimiter"
  | comma => "Expecting ',' delimiter"
  | noMore => "Extra data"
  | printable => "Invalid control character at"
  | closingQuote => "Unterminated string starting at"
  | hexEscape => "Invalid \\uXXXX escape"
  | escape => "Invalid \\escape"
  | noMark => "Unexpected UTF-8 BOM (decode using utf-8-sig)"

def SyntaxError.message (e : SyntaxError) : String :=
  s!"{e.expected.message}: line {e.line} column {e.column} (char {e.position})"

end LintDebt.Json
