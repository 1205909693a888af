import LintDebt.Number.Binary64

/-! # Numbers as text

Integers are written in decimal digits. A floating point number is written with the fewest digits
that read back: in positional notation when its leading digit stands for at least `10^-4` and less
than `10^16`, always with a point, and otherwise with an exponent of at least two digits. -/

namespace LintDebt

def natText (n : Nat) : List Char := Nat.toDigits 10 n

def intText (n : Int) : List Char :=
  if n < 0 then '-' :: natText n.natAbs else natText n.natAbs

namespace Binary64

def exponentText (e : Int) : List Char :=
  let ds := natText e.natAbs
  ['e', if e < 0 then '-' else '+'] ++ (if ds.length < 2 then '0' :: ds else ds)

/-- Digits `d₁ d₂ …` with the point after `point` of them, without trailing zeros in `ds`. -/
def positional (ds : List Char) (point : Int) : List Char :=
  if point ≤ 0 then ['0', '.'] ++ List.replicate (-point).toNat '0' ++ ds
  else
    let n := point.toNat
    if ds.length ≤ n then ds ++ List.replicate (n - ds.length) '0' ++ ['.', '0']
    else ds.take n ++ '.' :: ds.drop n

/-- Digits `d₁.d₂…` with an exponent. -/
def scientific (ds : List Char) (e : Int) : List Char :=
  (match ds with
    | d :: next :: rest => d :: '.' :: next :: rest
    | short => short) ++ exponentText e

def decimalText (d : Decimal) : List Char :=
  let all := natText d.digits
  let point : Int := d.exponent + all.length
  let ds := (all.reverse.dropWhile (· = '0')).reverse
  if -4 < point ∧ point ≤ 16 then positional ds point else scientific ds (point - 1)

/-- How a format spells the numbers that have no digits. -/
structure Spelling where
  infinity : String
  nan : String

def text (words : Spelling) : Binary64 → List Char
  | .finite negative m e =>
    (if negative then ['-'] else []) ++
      (if m = 0 then ['0', '.', '0'] else decimalText (shortest m e))
  | .infinite negative => (if negative then ['-'] else []) ++ words.infinity.toList
  | .nan => words.nan.toList

end Binary64
end LintDebt
