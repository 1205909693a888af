import LintDebt.Json.Reader
import LintDebt.Toml.Value

/-! # TOML strings, numbers, dates and times

The readers of the values that hold no others. Each takes the text at a value and gives the value
with the rest. A number takes as many characters as it can, and leaves what cannot follow it to the
reader of the line. -/

namespace LintDebt.Toml

abbrev Step (α : Type) := Except Error (α × List Char)

def isIndent (c : Char) : Bool := c = ' ' || c = '\t'

/-- Controls other than the tab. -/
def isControl (c : Char) : Bool := (c.toNat < 0x20 && c ≠ '\t') || c = '\x7f'

/-- A line of an ordinary string has no control in it; a string of several lines has line ends. -/
def isIllegal (manyLines : Bool) (c : Char) : Bool := isControl c && !(manyLines && c = '\n')

/-- The character that a one-letter escape stands for. -/
def escape? : Char → Option Char
  | 'b' => some '\x08'
  | 't' => some '\t'
  | 'n' => some '\n'
  | 'f' => some '\x0c'
  | 'r' => some '\r'
  | '"' => some '"'
  | '\\' => some '\\'
  | _ => none

def hexChar? (digits : List Char) : Option Char := do
  let values ← digits.mapM Json.hexValue?
  let n := values.foldl (fun n d => n * 16 + d) 0
  if n < 0xd800 ∨ (0xdfff < n ∧ n < 0x110000) then some (Char.ofNat n) else none

/-- Where the reader of a string stands: in its text, after a backslash that ends a line, or past
that line's end, where everything blank is passed over. -/
inductive Place where
  | inText
  | beforeLineEnd
  | afterLineEnd
  deriving DecidableEq, Repr

def push (c : Char) (x : Step (List Char)) : Step (List Char) :=
  x.map fun (s, rest) => (c :: s, rest)

/-- Reads a string with escapes up to its closing quotes. -/
def escaped (manyLines : Bool) : Place → List Char → Step (List Char)
  | _, [] => .error .malformed
  | .beforeLineEnd, c :: rest =>
    if isIndent c then escaped manyLines .beforeLineEnd rest
    else if c = '\n' then escaped manyLines .afterLineEnd rest
    else .error .malformed
  | place, c :: rest =>
    if place = .afterLineEnd ∧ (isIndent c ∨ c = '\n') then escaped manyLines .afterLineEnd rest
    else if c = '"' then
      if !manyLines then .ok ([], rest)
      else match rest with
        | '"' :: '"' :: rest => .ok ([], rest)
        | rest => push '"' (escaped manyLines .inText rest)
    else if c = '\\' then
      match rest with
      | [] => .error .malformed
      | 'u' :: a :: b :: c :: d :: rest =>
        match hexChar? [a, b, c, d] with
        | some x => push x (escaped manyLines .inText rest)
        | none => .error .malformed
      | 'U' :: a :: b :: c :: d :: e :: f :: g :: h :: rest =>
        match hexChar? [a, b, c, d, e, f, g, h] with
        | some x => push x (escaped manyLines .inText rest)
        | none => .error .malformed
      | e :: rest =>
        if manyLines ∧ e = '\n' then escaped manyLines .afterLineEnd rest
        else if manyLines ∧ isIndent e then escaped manyLines .beforeLineEnd rest
        else match escape? e with
          | some x => push x (escaped manyLines .inText rest)
          | none => .error .malformed
    else if isIllegal manyLines c then .error .malformed
    else push c (escaped manyLines .inText rest)

/-- Reads a string without escapes up to its closing quote, or up to three of them. -/
def literal (manyLines : Bool) : List Char → Step (List Char)
  | [] => .error .malformed
  | c :: rest =>
    if c = '\'' then
      if !manyLines then .ok ([], rest)
      else match rest with
        | '\'' :: '\'' :: rest => .ok ([], rest)
        | rest => push '\'' (literal manyLines rest)
    else if isIllegal manyLines c then .error .malformed
    else push c (literal manyLines rest)

/-- Up to two quotes may stand right before the three that close a string. -/
def moreQuotes (quote : Char) (x : Step (List Char)) : Step (List Char) :=
  x.map fun (s, rest) =>
    match rest with
    | a :: b :: more =>
      if a = quote ∧ b = quote then (s ++ [quote, quote], more)
      else if a = quote then (s ++ [quote], b :: more)
      else (s, rest)
    | [a] => if a = quote then (s ++ [quote], []) else (s, rest)
    | [] => (s, rest)

/-- A line end right after the opening quotes is no part of the string. -/
def skipLineEnd : List Char → List Char
  | '\n' :: rest => rest
  | s => s

/-- Reads a string of any of the four forms; `none` if the text does not begin with one. -/
def string? : List Char → Option (Step (List Char))
  | '"' :: '"' :: '"' :: rest => some (moreQuotes '"' (escaped true .inText (skipLineEnd rest)))
  | '"' :: rest => some (escaped false .inText rest)
  | '\'' :: '\'' :: '\'' :: rest => some (moreQuotes '\'' (literal true (skipLineEnd rest)))
  | '\'' :: rest => some (literal false rest)
  | _ => none

/-- Digits after the first, a single underscore allowed before each. -/
def moreDigits (p : Char → Bool) : List Char → List Char × List Char
  | [] => ([], [])
  | '_' :: c :: rest =>
    if p c then
      let (ds, rest) := moreDigits p rest
      (c :: ds, rest)
    else ([], '_' :: c :: rest)
  | c :: rest =>
    if p c then
      let (ds, rest) := moreDigits p rest
      (c :: ds, rest)
    else ([], c :: rest)

def digits? (p : Char → Bool) : List Char → Option (List Char × List Char)
  | c :: rest =>
    if p c then
      let (ds, rest) := moreDigits p rest
      some (c :: ds, rest)
    else none
  | [] => none

def basedInteger? : List Char → Option (Toml × List Char)
  | '0' :: mark :: rest => do
    let base ← if mark = 'x' then some 16 else if mark = 'o' then some 8
      else if mark = 'b' then some 2 else none
    let isDigit (c : Char) : Bool := match Json.hexValue? c with
      | some d => d < base
      | none => false
    let (ds, rest) ← digits? isDigit rest
    let n := (ds.filterMap Json.hexValue?).foldl (fun n d => n * base + d) 0
    return (.integer n, rest)
  | _ => none

/-- The digits before the point of a decimal number: no leading zero. -/
def wholePart? : List Char → Option (List Char × List Char)
  | '0' :: rest => some (['0'], rest)
  | s => digits? Char.isDigit s

def fractionPart (s : List Char) : List Char × List Char :=
  match s with
  | '.' :: rest => (digits? Char.isDigit rest).getD ([], s)
  | _ => ([], s)

def exponentPart (s : List Char) : Option Int × List Char :=
  let digits (sign : Int) (rest : List Char) : Option Int × List Char :=
    match digits? Char.isDigit rest with
    | some (ds, rest) => (some (sign * Json.digitsValue ds), rest)
    | none => (none, s)
  match s with
  | 'e' :: '-' :: rest | 'E' :: '-' :: rest => digits (-1) rest
  | 'e' :: '+' :: rest | 'E' :: '+' :: rest => digits 1 rest
  | 'e' :: rest | 'E' :: rest => digits 1 rest
  | _ => (none, s)

def splitSign : List Char → Bool × List Char
  | '-' :: rest => (true, rest)
  | '+' :: rest => (false, rest)
  | s => (false, s)

def decimal? (s : List Char) : Option (Step Toml) := do
  let (negative, unsigned) := splitSign s
  let (whole, rest) ← wholePart? unsigned
  let (fraction, rest) := fractionPart rest
  let (exponent, rest) := exponentPart rest
  if fraction.isEmpty && exponent.isNone then
    if Json.digitLimit < whole.length then return .error (.tooManyDigits whole.length)
    let n : Int := Json.digitsValue whole
    return .ok (.integer (if negative then -n else n), rest)
  let value := Binary64.ofDecimal negative (Json.digitsValue (whole ++ fraction))
    (exponent.getD 0 - fraction.length)
  return .ok (.float value, rest)

/-- The numbers without digits. -/
def wordNumber? (s : List Char) : Option (Toml × List Char) :=
  match splitSign s with
  | (negative, 'i' :: 'n' :: 'f' :: rest) => some (.float (.infinite negative), rest)
  | (_, 'n' :: 'a' :: 'n' :: rest) => some (.float .nan, rest)
  | _ => none

def two? (least greatest : Nat) : List Char → Option (Nat × List Char)
  | a :: b :: rest =>
    if a.isDigit ∧ b.isDigit then
      let n := Json.digitsValue [a, b]
      if least ≤ n ∧ n ≤ greatest then some (n, rest) else none
    else none
  | _ => none

def expect? (c : Char) : List Char → Option (List Char)
  | x :: rest => if x = c then some rest else none
  | [] => none

def time? (s : List Char) : Option (List Char) := do
  let (_, s) ← two? 0 23 s
  let s ← expect? ':' s
  let (_, s) ← two? 0 59 s
  let s ← expect? ':' s
  let (_, s) ← two? 0 59 s
  match s with
  | '.' :: rest =>
    match rest.span Char.isDigit with
    | ([], _) => some s
    | (_, rest) => some rest
  | s => some s

/-- Passes over a distance from UTC, if there is one. -/
def skipOffset (s : List Char) : List Char :=
  match s with
  | [] => []
  | c :: rest =>
    if c = 'Z' ∨ c = 'z' then rest
    else if c = '+' ∨ c = '-' then
      let found := do
        let (_, s) ← two? 0 23 rest
        let s ← expect? ':' s
        let (_, s) ← two? 0 59 s
        return s
      found.getD s
    else s

def daysIn (year month : Nat) : Nat :=
  if month = 2 then
    if year % 4 = 0 ∧ (year % 100 ≠ 0 ∨ year % 400 = 0) then 29 else 28
  else if month = 4 ∨ month = 6 ∨ month = 9 ∨ month = 11 then 30
  else 31

/-- A date, with a time if one follows it. A day that the month does not have is an error. -/
def date? (s : List Char) : Option (Step Toml) := do
  let (high, s) ← two? 0 99 s
  let (low, s) ← two? 0 99 s
  let s ← expect? '-' s
  let (month, s) ← two? 1 12 s
  let s ← expect? '-' s
  let (day, s) ← two? 1 31 s
  let year := high * 100 + low
  let rest := match s with
    | c :: more =>
      if c = 'T' ∨ c = 't' ∨ c = ' ' then ((time? more).map skipOffset).getD s else s
    | [] => []
  if year = 0 ∨ daysIn year month < day then return .error .malformed
  return .ok (.moment, rest)

/-- Reads a value that holds no others. -/
def scalar (s : List Char) : Step Toml :=
  match s with
  | 't' :: 'r' :: 'u' :: 'e' :: rest => .ok (.boolean true, rest)
  | 'f' :: 'a' :: 'l' :: 's' :: 'e' :: rest => .ok (.boolean false, rest)
  | s =>
    match string? s with
    | some x => x.map fun (chars, rest) => (.text (String.ofList chars), rest)
    | none =>
      match date? s with
      | some x => x
      | none =>
        match time? s, basedInteger? s, decimal? s, wordNumber? s with
        | some rest, _, _, _ => .ok (.moment, rest)
        | none, some found, _, _ => .ok found
        | none, none, some x, _ => x
        | none, none, none, some found => .ok found
        | none, none, none, none => .error .malformed

end LintDebt.Toml
