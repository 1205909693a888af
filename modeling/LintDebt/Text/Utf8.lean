import LintDebt.Text.Units

/-! # UTF-8

A decoder that reads octet by octet and says, when it stops, which run of octets was at fault and
where that run began. The run is the longest start of a well-formed sequence, so one octet when not
even the first can begin a character. `scan` keeps apart an octet that no text can hold from a
sequence that the end of the input cut off: a reader of a growing input has to wait in the second
case only. -/

namespace LintDebt.Utf8

def encode (s : List Char) : List UInt8 :=
  s.flatMap String.utf8EncodeChar

/-- The octets of a unit sequence; no octets stand for a surrogate without its partner. -/
def encodeUnits (us : Text.Units) : Except Text.LoneRun (List UInt8) :=
  match Text.loneRun? (fun _ => false) 0 (Text.points us) with
  | some run => .error run
  | none => .ok (encode (Text.ofUnits us))

inductive Reason where
  | invalidStart
  | invalidContinuation
  | unexpectedEnd
  deriving DecidableEq, Repr

/-- A run of `length` octets from `position` on that decodes to nothing; `first` is its first. -/
structure Error where
  reason : Reason
  position : Nat
  length : Nat
  first : UInt8
  deriving DecidableEq, Repr

/-- Where the octet is that could not be read on: after the run, unless not even the first of it can
begin a character. -/
def Error.refusedAt (e : Error) : Nat :=
  if e.reason = .invalidStart then e.position else e.position + e.length

/-- A sequence under way: where it began, its first octet, how many octets were taken and how many
are owed, the bits so far, and the bounds of the next octet. -/
structure Pending where
  position : Nat
  first : UInt8
  taken : Nat
  owed : Nat
  bits : Nat
  least : UInt8
  greatest : UInt8
  deriving DecidableEq, Repr

/-- The error of a sequence that cannot go on. -/
def Pending.error (p : Pending) (reason : Reason) : Error :=
  ⟨reason, p.position, p.taken, p.first⟩

/-- The sequence that a first octet above 0x7F begins. The bounds on the second octet rule out
overlong forms, surrogates and numbers past the last code point. -/
def lead? (position : Nat) (b : UInt8) : Option Pending :=
  let n := b.toNat
  if 0xc2 ≤ n ∧ n ≤ 0xdf then some ⟨position, b, 1, 1, n - 0xc0, 0x80, 0xbf⟩
  else if n = 0xe0 then some ⟨position, b, 1, 2, 0, 0xa0, 0xbf⟩
  else if n = 0xed then some ⟨position, b, 1, 2, 0xd, 0x80, 0x9f⟩
  else if 0xe1 ≤ n ∧ n ≤ 0xef then some ⟨position, b, 1, 2, n - 0xe0, 0x80, 0xbf⟩
  else if n = 0xf0 then some ⟨position, b, 1, 3, 0, 0x90, 0xbf⟩
  else if 0xf1 ≤ n ∧ n ≤ 0xf3 then some ⟨position, b, 1, 3, n - 0xf0, 0x80, 0xbf⟩
  else if n = 0xf4 then some ⟨position, b, 1, 3, 4, 0x80, 0x8f⟩
  else none

/-- How the reading of an input ended. -/
inductive Stop where
  | complete
  | cut (p : Pending)
  | refused (e : Error)
  deriving DecidableEq, Repr

/-- The characters decoded, and how the reading ended. -/
structure Scan where
  text : List Char
  stop : Stop
  deriving DecidableEq, Repr

def Scan.push (c : Char) (r : Scan) : Scan :=
  { r with text := c :: r.text }

/-- Reads octets, the first of them at `position`, after the sequence under way if there is one. -/
def scanFrom (position : Nat) : Option Pending → List UInt8 → Scan
  | none, [] => ⟨[], .complete⟩
  | some p, [] => ⟨[], .cut p⟩
  | none, b :: rest =>
    if b < 0x80 then (scanFrom (position + 1) none rest).push (Char.ofNat b.toNat)
    else match lead? position b with
      | none => ⟨[], .refused ⟨.invalidStart, position, 1, b⟩⟩
      | some p => scanFrom (position + 1) (some p) rest
  | some p, b :: rest =>
    if b < p.least ∨ p.greatest < b then ⟨[], .refused (p.error .invalidContinuation)⟩
    else
      let bits := p.bits * 64 + (b.toNat - 0x80)
      if p.owed ≤ 1 then (scanFrom (position + 1) none rest).push (Char.ofNat bits)
      else scanFrom (position + 1)
        (some { p with taken := p.taken + 1, owed := p.owed - 1, bits
                       least := 0x80, greatest := 0xbf })
        rest

/-- Reads octets from the start of an input. -/
def scan (octets : List UInt8) : Scan :=
  scanFrom 0 none octets

/-- The text of an input that has come to its end. -/
def decode (octets : List UInt8) : Except Error (List Char) :=
  match scan octets with
  | ⟨text, .complete⟩ => .ok text
  | ⟨_, .cut p⟩ => .error (p.error .unexpectedEnd)
  | ⟨_, .refused e⟩ => .error e

def byteOrderMark : List UInt8 := [0xef, 0xbb, 0xbf]

end LintDebt.Utf8
