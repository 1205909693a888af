import LintDebt.Text.Printable
import LintDebt.Text.Units

/-! # Quoted text

The form in which messages show a text that may hold anything: in single quotes, or in double
quotes when it holds a single quote and no double one, with escapes for the backslash, the quote
in use, every character that has no shape, and every surrogate without its partner. `asciiOnly`
goes one step further and escapes every character outside ASCII. -/

namespace LintDebt.Text

/-- The last `width` hexadecimal digits of `n`, in lower case. -/
def hexDigits (n : Nat) : (width : Nat) → List Char
  | 0 => []
  | width + 1 => hexDigits (n / 16) width ++ [Nat.digitChar (n % 16)]

/-- The escape for a code point by its number, in the shortest of three lengths. -/
def numberEscape (n : Nat) : List Char :=
  if n < 0x100 then '\\' :: 'x' :: hexDigits n 2
  else if n < 0x10000 then '\\' :: 'u' :: hexDigits n 4
  else '\\' :: 'U' :: hexDigits n 8

/-- One character as a quoted text writes it. -/
def quotedChar (quote c : Char) : List Char :=
  if c = quote ∨ c = '\\' then ['\\', c]
  else if c = '\t' then ['\\', 't']
  else if c = '\n' then ['\\', 'n']
  else if c = '\r' then ['\\', 'r']
  else if isPrintable c then [c]
  else numberEscape c.toNat

def quotedPoint (quote : Char) : Point → List Char
  | .char c => quotedChar quote c
  | .lone u => numberEscape u.toNat

/-- The quoted form of a sequence of points. -/
def quotedPoints (ps : List Point) : String :=
  let quote := if ps.contains (.char '\'') && !ps.contains (.char '"') then '"' else '\''
  String.ofList (quote :: ps.flatMap (quotedPoint quote) ++ [quote])

def quoted (s : String) : String := quotedPoints (s.toList.map .char)

def quotedUnits (us : Units) : String := quotedPoints (points us)

/-- The text with an escape for every character outside ASCII. -/
def asciiOnly (s : List Char) : List Char :=
  s.flatMap fun c => if c.toNat < 0x80 then [c] else numberEscape c.toNat

end LintDebt.Text
