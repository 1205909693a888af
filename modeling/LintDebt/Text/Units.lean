/-! # UTF-16 units

A text as the sequence of its UTF-16 units. A code point past U+FFFF takes two, a high and a low
surrogate; a unit sequence may also hold a surrogate without its partner, which no string can.
`points` tells the two cases apart, and the other readings go through it. -/

namespace LintDebt.Text

/-- A text that may hold a surrogate without its partner. -/
abbrev Units := List UInt16

def isHighSurrogate (u : UInt16) : Bool := 0xd800 ≤ u && u ≤ 0xdbff

def isLowSurrogate (u : UInt16) : Bool := 0xdc00 ≤ u && u ≤ 0xdfff

def charUnits (c : Char) : Units :=
  if c.toNat < 0x10000 then [c.toNat.toUInt16]
  else
    let n := c.toNat - 0x10000
    [(0xd800 + n / 0x400).toUInt16, (0xdc00 + n % 0x400).toUInt16]

def units (s : List Char) : Units := s.flatMap charUnits

def unitsOf (s : String) : Units := units s.toList

def joinSurrogates (high low : UInt16) : Char :=
  Char.ofNat (0x10000 + (high.toNat - 0xd800) * 0x400 + (low.toNat - 0xdc00))

/-- A character, or a surrogate without its partner. -/
inductive Point where
  | char (c : Char)
  | lone (u : UInt16)
  deriving DecidableEq, Repr

/-- The point that a unit is when it is no part of a pair. -/
def Point.ofUnit (u : UInt16) : Point :=
  if isHighSurrogate u || isLowSurrogate u then .lone u else .char (Char.ofNat u.toNat)

/-- What a unit sequence spells, point by point. -/
def points : Units → List Point
  | [] => []
  | u :: v :: rest =>
    if isHighSurrogate u && isLowSurrogate v then .char (joinSurrogates u v) :: points rest
    else .ofUnit u :: points (v :: rest)
  | [u] => [.ofUnit u]

def Point.char? : Point → Option Char
  | char c => some c
  | lone _ => none

def Point.units : Point → Units
  | char c => charUnits c
  | lone u => [u]

/-- The text of a unit sequence; a surrogate without its partner becomes U+FFFD. -/
def ofUnits (us : Units) : List Char := (points us).map fun p => p.char?.getD '\ufffd'

/-- The text of a unit sequence in which every surrogate has its partner. -/
def ofUnits? (us : Units) : Option (List Char) := (points us).mapM Point.char?

/-- A run of surrogates without partners: how many points come before it, how many are in it, and
the first of them. -/
structure LoneRun where
  position : Nat
  length : Nat
  first : UInt16
  deriving DecidableEq, Repr

/-- The run that begins with the first lone surrogate that is not allowed, where the first of the
points stands at `position`. -/
def loneRun? (allowed : UInt16 → Bool) (position : Nat) : List Point → Option LoneRun
  | [] => none
  | .char _ :: rest => loneRun? allowed (position + 1) rest
  | .lone u :: rest =>
    if allowed u then loneRun? allowed (position + 1) rest
    else some ⟨position, 1 + (rest.takeWhile (·.char?.isNone)).length, u⟩

end LintDebt.Text
