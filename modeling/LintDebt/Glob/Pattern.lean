/-! # Patterns for names

`*` stands for any characters, `?` for one, and brackets for one of a set. In a set `!` in front
means all others, a hyphen between two characters a range, and a closing bracket in front stands for
itself; so does an opening bracket without a closing one. A range whose ends are in the wrong order
is empty: its ends and its hyphen are dropped, which may leave a set that matches nothing, or a `!`
in front that was not there before. A hyphen right after such a `!` stands for itself.

A pattern is matched token by token: `after` turns the ends of a text at which one token may begin
into those at which the next one may. -/

namespace LintDebt.Glob

/-- The characters in one of the ranges, or all others. -/
structure CharSet where
  negated : Bool
  ranges : List (Char × Char)
  deriving DecidableEq, Repr

def CharSet.contains (s : CharSet) (c : Char) : Bool :=
  s.ranges.any (fun (low, high) => low ≤ c && c ≤ high) != s.negated

inductive Token where
  | star
  | one
  | char (c : Char)
  | set (s : CharSet)
  deriving DecidableEq, Repr

/-- Cuts the inside of a set at the hyphens that make a range. Such a hyphen has a character on its
left that does not belong to an earlier range; `skip` counts the characters before it may come. -/
def cutRanges : (bound : Nat) → (skip : Nat) → List Char → List (List Char)
  | 0, _, s => [s]
  | bound + 1, skip, s =>
    match (s.drop skip).span (· ≠ '-') with
    | (_, []) => [s]
    | (middle, _ :: rest) => (s.take skip ++ middle) :: cutRanges bound 2 rest

/-- The hyphen at the end of a set stands for itself. -/
def closeCuts : List (List Char) → List (List Char)
  | [] => []
  | [c] => [c]
  | [c, []] => [c ++ ['-']]
  | c :: cs => c :: closeCuts cs

/-- Drops empty ranges, the last one first. -/
def dropEmptyRanges : List (List Char) → List (List Char)
  | [] => []
  | c :: cs =>
    match dropEmptyRanges cs with
    | [] => [c]
    | d :: ds =>
      match c.getLast?, d.head? with
      | some low, some high => if high < low then (c.dropLast ++ d.tail) :: ds else c :: d :: ds
      | _, _ => c :: d :: ds

/-- The ranges between neighbouring pieces. -/
def rangesBetween : List (List Char) → List (Char × Char)
  | c :: d :: rest =>
    (match c.getLast?, d.head? with
      | some low, some high => [(low, high)]
      | _, _ => []) ++ rangesBetween (d :: rest)
  | _ => []

/-- The set that the text between brackets denotes. -/
def CharSet.parse (s : List Char) : CharSet :=
  let skip := if s.head? = some '!' then 2 else 1
  let (negated, cuts) := match dropEmptyRanges (closeCuts (cutRanges s.length skip s)) with
    | ['!'] :: c :: rest => (true, ('-' :: c) :: rest)
    | ('!' :: c) :: rest => (true, c :: rest)
    | cuts => (false, cuts)
  ⟨negated, rangesBetween cuts ++ cuts.flatten.map fun c => (c, c)⟩

/-- The text up to the bracket that closes a set, if one does. -/
def setBody? (s : List Char) : Option (List Char) :=
  let bang := if s.head? = some '!' then 1 else 0
  let lead := if (s.drop bang).head? = some ']' then bang + 1 else bang
  match (s.drop lead).span (· ≠ ']') with
  | (_, []) => none
  | (middle, _) => some (s.take lead ++ middle)

/-- Reads tokens, after passing over `skip` characters. -/
def tokens : (skip : Nat) → List Char → List Token
  | _, [] => []
  | skip + 1, _ :: s => tokens skip s
  | 0, c :: s =>
    if c = '*' then .star :: tokens 0 s
    else if c = '?' then .one :: tokens 0 s
    else if c = '[' then
      match setBody? s with
      | some body => .set (.parse body) :: tokens (body.length + 1) s
      | none => .char c :: tokens 0 s
    else .char c :: tokens 0 s

/-- All ends of a text, the longest first. -/
def ends : List Char → List (List Char)
  | [] => [[]]
  | c :: s => (c :: s) :: ends s

/-- The character that a token for one character takes. -/
def Token.admits : Token → Char → Bool
  | star, _ => false
  | one, _ => true
  | char x, c => x = c
  | set x, c => x.contains c

/-- The ends left when a token has taken its part of one of the given ends, which are in order from
the longest on. -/
def Token.after (t : Token) (starts : List (List Char)) : List (List Char) :=
  match t with
  | star => (starts.head?.map ends).getD []
  | t => starts.filterMap fun
    | [] => none
    | c :: s => if t.admits c then some s else none

/-- Holds when the tokens describe the whole text. -/
def covers (ts : List Token) (s : List Char) : Bool :=
  (ts.foldl (fun starts t => t.after starts) [s]).any List.isEmpty

end LintDebt.Glob
