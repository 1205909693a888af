import LintDebt.Text.Blank

/-! # Numerals

Texts that spell an integer. A plain numeral is what a number looks like in JSON: a minus sign or
nothing, and digits without superfluous zeros. Other texts are tidied up first: blanks around them
and a plus sign in front are dropped, then leading zeros, a fraction that is zero, and underscores
between digits. Tidying goes by single characters, so that a sign or underscores may also hide among
the leading zeros. A numeral that is too long is told apart only as long as nothing was tidied. -/

namespace LintDebt.Numeral

inductive Flaw where
  | malformed
  | tooLong
  deriving DecidableEq, Repr

/-- The most characters that the sign and the digits may have together. -/
def lengthLimit : Nat := 4300

def splitMinus : List Char → Bool × List Char
  | '-' :: rest => (true, rest)
  | s => (false, s)

/-- The value of a plain numeral. Its length is looked at before what follows its digits. -/
def plain (s : List Char) : Except Flaw Int :=
  let (negative, unsigned) := splitMinus s
  if unsigned = ['0'] then .ok 0
  else
    let digits := unsigned.takeWhile Char.isDigit
    if digits.head? = some '0' then .error .malformed
    else if lengthLimit < digits.length + negative.toNat then .error .tooLong
    else if digits.isEmpty || digits != unsigned then .error .malformed
    else
      let n : Int := Nat.ofDigitChars 10 digits 0
      .ok (if negative then -n else n)

/-- What is left after the zeros and underscores that follow a zero. At least one character stays:
the last of them at the end of the text and before a point. -/
def dropZerosAfter (last : Char) : List Char → Option (List Char)
  | [] => some [last]
  | c :: rest =>
    if c = '0' ∨ c = '_' then dropZerosAfter c rest
    else if c.isDigit ∨ c = '-' then some (c :: rest)
    else if c = '.' then some (last :: c :: rest)
    else none

/-- The text without leading zeros, if it begins with a digit or a minus sign. -/
def dropZeros : List Char → Option (List Char)
  | '0' :: rest => dropZerosAfter '0' rest
  | c :: rest => if c.isDigit ∨ c = '-' then some (c :: rest) else none
  | [] => none

/-- The text without a point that is followed by zeros only, one at least. -/
def dropFraction (s : List Char) : List Char :=
  match s.span (· ≠ '.') with
  | (whole, _ :: zero :: zeros) => if (zero :: zeros).all (· = '0') then whole else s
  | _ => s

/-- The text without underscores, each of which has to stand between two other characters. -/
def dropUnderscores (s : List Char) : Option (List Char) :=
  let groups := s.splitOn '_'
  if groups.length = 1 then some s
  else if groups.any List.isEmpty then none
  else some groups.flatten

/-- The text without blanks at its ends and without a plus sign, which no minus sign may follow. -/
def dropPlus (s : List Char) : Option (List Char) :=
  match ((s.dropWhile Text.isSpace).reverse.dropWhile Text.isSpace).reverse with
  | '+' :: '-' :: _ => none
  | '+' :: rest => some rest
  | rest => some rest

/-- The plain numeral that a text stands for. -/
def tidy (s : List Char) : Option (List Char) := do
  let (negative, unsigned) := splitMinus (← dropPlus s)
  let digits ← dropUnderscores (dropFraction (← dropZeros unsigned))
  return if negative then '-' :: digits else digits

def read (s : List Char) : Except Flaw Int :=
  match plain s with
  | .error .malformed =>
    match (tidy s).map plain with
    | some (.ok n) => .ok n
    | _ => .error .malformed
  | known => known

end LintDebt.Numeral
