/-! # Binary floating point numbers

The finite numbers `±m · 2^e` with at most 53 bits in `m`, the infinities and not-a-number.
`ofDecimal` rounds a decimal number to the nearest of them, a tie to the even mantissa. `shortest`
goes the other way: of the decimal numbers that round to the given one it takes those with the
fewest digits, and of these the nearest. It looks for them on coarser and finer decimal grids in
turn, where only the two neighbours of the value have to be tried. All of it is exact arithmetic on
natural numbers. -/

namespace LintDebt

inductive Binary64 where
  | finite (negative : Bool) (mantissa : Nat) (exponent : Int)
  | infinite (negative : Bool)
  | nan
  deriving DecidableEq, Repr, Inhabited

namespace Binary64

/-- The exponent of the smallest positive number. -/
def leastExponent : Int := -1074

/-- The greatest exponent that a 53-bit mantissa can have. -/
def greatestExponent : Int := 971

/-- The quotient rounded to the nearest integer, a tie to the even one. -/
def roundDiv (num den : Nat) : Nat :=
  let q := num / den
  let r := num % den
  if den < 2 * r ∨ (2 * r = den ∧ q % 2 = 1) then q + 1 else q

/-- The number nearest to `num / den` for a positive `den`. -/
def ofQuotient (negative : Bool) (num den : Nat) : Binary64 :=
  if num = 0 then .finite negative 0 leastExponent
  else
    let scaled (e : Int) : Nat × Nat :=
      if e < 0 then (num * Nat.pow 2 (-e).toNat, den) else (num, den * Nat.pow 2 e.toNat)
    let low : Int := (num.log2 : Int) - den.log2 - 53
    let fits := (scaled low).1 / (scaled low).2 < Nat.pow 2 53
    let e := max leastExponent (if fits then low else low + 1)
    let m := roundDiv (scaled e).1 (scaled e).2
    let (m, e) := if m = Nat.pow 2 53 then (Nat.pow 2 52, e + 1) else (m, e)
    if greatestExponent < e then .infinite negative else .finite negative m e

/-- The number nearest to `± digits · 10^exponent`. Far outside the range of the format the answer
is known without computing the power. -/
def ofDecimal (negative : Bool) (digits : Nat) (exponent : Int) : Binary64 :=
  let width : Int := (Nat.toDigits 10 digits).length
  if digits = 0 ∨ width + exponent < -330 then .finite negative 0 leastExponent
  else if 310 < width + exponent then .infinite negative
  else if exponent < 0 then ofQuotient negative digits (Nat.pow 10 (-exponent).toNat)
  else ofQuotient negative (digits * Nat.pow 10 exponent.toNat) 1

def toInt? : Binary64 → Option Int
  | .finite negative m e =>
    let value :=
      if 0 ≤ e then some (m * Nat.pow 2 e.toNat)
      else if m % Nat.pow 2 (-e).toNat = 0 then some (m / Nat.pow 2 (-e).toNat) else none
    value.map fun (n : Nat) => if negative then -(n : Int) else n
  | _ => none

def floor? : Binary64 → Option Int
  | .finite negative m e =>
    let signed : Int := if negative then -(m : Int) else m
    some (if 0 ≤ e then signed * Nat.pow 2 e.toNat else signed / (Nat.pow 2 (-e).toNat : Nat))
  | _ => none

def truncate? : Binary64 → Option Int
  | .finite negative m e =>
    let value : Nat := if 0 ≤ e then m * Nat.pow 2 e.toNat else m / Nat.pow 2 (-e).toNat
    some (if negative then -(value : Int) else value)
  | _ => none

/-- `digits · 10^exponent`, where the digits are those of a natural number. -/
structure Decimal where
  digits : Nat
  exponent : Int
  deriving DecidableEq, Repr

/-- The interval of reals that round to a number, times `den`, with the value itself; its ends
belong to it when `closed`. -/
structure Rounding where
  low : Nat
  value : Nat
  high : Nat
  den : Nat
  closed : Bool

/-- The interval of `mantissa · 2^exponent`. Below a power of two the numbers lie twice as close. -/
def rounding (mantissa : Nat) (exponent : Int) : Rounding :=
  let below := if mantissa = Nat.pow 2 52 ∧ leastExponent < exponent then 1 else 2
  let scale := exponent - 2
  let up := Nat.pow 2 scale.toNat
  ⟨(4 * mantissa - below) * up, 4 * mantissa * up, (4 * mantissa + 2) * up,
    Nat.pow 2 (-scale).toNat, mantissa % 2 = 0⟩

/-- The same interval in units of `10^k`. -/
def Rounding.onGrid (r : Rounding) (k : Int) : Rounding :=
  let up := Nat.pow 10 (-k).toNat
  { r with low := r.low * up, value := r.value * up, high := r.high * up
           den := r.den * Nat.pow 10 k.toNat }

def Rounding.holds (r : Rounding) (n : Nat) : Bool :=
  if r.closed then r.low ≤ n * r.den && n * r.den ≤ r.high
  else r.low < n * r.den && n * r.den < r.high

/-- The grid point to take, if one of the two neighbours of the value rounds to it. -/
def Rounding.nearest? (r : Rounding) : Option Nat :=
  let below := r.value / r.den
  match r.holds below, r.holds (below + 1) with
  | false, false => none
  | true, false => some below
  | false, true => some (below + 1)
  | true, true => some (roundDiv r.value r.den)

/-- The exponent of the leading decimal digit of `value / den`. -/
def Rounding.magnitude (r : Rounding) : Int :=
  let guess : Int := ((r.value.log2 : Int) - r.den.log2) * 30103 / 100000
  let reaches (k : Int) : Bool :=
    let g := r.onGrid k
    g.den ≤ g.value
  ([guess + 2, guess + 1, guess, guess - 1].find? reaches).getD (guess - 2)

/-- The shortest decimal number that rounds to `mantissa · 2^exponent`; seventeen digits always
suffice. -/
def shortest (mantissa : Nat) (exponent : Int) : Decimal :=
  let r := rounding mantissa exponent
  let top := r.magnitude
  let grids := (List.range 17).map fun (n : Nat) => top - n
  match grids.findSome? fun k => ((r.onGrid k).nearest?).map fun n => Decimal.mk n k with
  | some d => d
  | none => ⟨(r.onGrid (top - 16)).value / (r.onGrid (top - 16)).den, top - 16⟩

end Binary64
end LintDebt
