import LintDebt.Number.Written

/-! # Numbers rounded to so many digits

A floating point number is rounded in exact arithmetic, a tie to the even digit, either to a number
of places after the point or to a number of digits in all. The point is left out when no digit
follows it, unless it is asked for. -/

namespace LintDebt.Binary64

/-- Digits around a point. -/
def pointed (always : Bool) (whole fraction : List Char) : List Char :=
  whole ++ if fraction.isEmpty && !always then [] else '.' :: fraction

/-- Digits with zeros in front, `width` of them at least. -/
def zeroFilled (width : Nat) (ds : List Char) : List Char :=
  List.replicate (width - ds.length) '0' ++ ds

/-- `mantissa · 2^exponent · 10^shift`, rounded to an integer. -/
def scaled (mantissa : Nat) (exponent shift : Int) : Nat :=
  roundDiv (mantissa * Nat.pow 2 exponent.toNat * Nat.pow 10 shift.toNat)
    (Nat.pow 2 (-exponent).toNat * Nat.pow 10 (-shift).toNat)

/-- Positional notation with so many digits after the point. -/
def fixedText (always : Bool) (places : Nat) (mantissa : Nat) (exponent : Int) : List Char :=
  let ds := zeroFilled (places + 1) (natText (scaled mantissa exponent places))
  pointed always (ds.take (ds.length - places)) (ds.drop (ds.length - places))

/-- The digits of a number and the power of ten that the first of them stands for. -/
structure Rounded where
  digits : List Char
  exponent : Int
  deriving DecidableEq, Repr

/-- The number rounded to `count + 1` digits. -/
def roundedTo (count : Nat) (mantissa : Nat) (exponent : Int) : Rounded :=
  if mantissa = 0 then ⟨List.replicate (count + 1) '0', 0⟩
  else
    let top := (rounding mantissa exponent).magnitude
    let ds := natText (scaled mantissa exponent (count - top))
    if count + 1 < ds.length then ⟨ds.take (count + 1), top + 1⟩ else ⟨ds, top⟩

/-- Scientific notation with so many digits after the point. -/
def exponentialText (always : Bool) (places : Nat) (mantissa : Nat) (exponent : Int) : List Char :=
  let r := roundedTo places mantissa exponent
  pointed always (r.digits.take 1) (r.digits.drop 1) ++ exponentText r.exponent

def trimZeros (ds : List Char) : List Char := (ds.reverse.dropWhile (· = '0')).reverse

/-- So many digits in all, in positional notation for numbers that are neither very small nor longer
than that. Zeros at the end of a fraction are left out, unless the point is asked for. -/
def generalText (always : Bool) (digits : Nat) (mantissa : Nat) (exponent : Int) : List Char :=
  let count := max digits 1
  let r := roundedTo (count - 1) mantissa exponent
  let shorten (fraction : List Char) := if always then fraction else trimZeros fraction
  if r.exponent < -4 ∨ count ≤ r.exponent then
    pointed always (r.digits.take 1) (shorten (r.digits.drop 1)) ++ exponentText r.exponent
  else if r.exponent < 0 then
    pointed always ['0']
      (shorten (List.replicate (-r.exponent - 1).toNat '0' ++ r.digits))
  else
    let whole := r.exponent.toNat + 1
    pointed always (r.digits.take whole) (shorten (r.digits.drop whole))

end LintDebt.Binary64
