import LintDebt.Log.Record
import LintDebt.Number.Written

/-! # Log lines

A record becomes one line: time, level, source and source line, message, in the colour of the level.
The time is in UTC. A day is turned into a date by counting eras of four hundred years from the
first of March, so that the leap day ends a year. Three limits keep a number of seconds from being a
time: the clock has 64 bits, the years since 1900 have 32, and so has a year that is written. -/

namespace LintDebt.Log

structure Date where
  year : Int
  month : Nat
  day : Nat
  deriving DecidableEq, Repr

/-- The date of a day, counted from the first of January 1970. -/
def Date.ofDay (day : Int) : Date :=
  let shifted := day + 719468
  let era := shifted / 146097
  let dayOfEra := (shifted % 146097).toNat
  let yearOfEra := (dayOfEra - dayOfEra / 1460 + dayOfEra / 36524 - dayOfEra / 146096) / 365
  let dayOfYear := dayOfEra - (365 * yearOfEra + yearOfEra / 4 - yearOfEra / 100)
  let monthFromMarch := (5 * dayOfYear + 2) / 153
  let month := if monthFromMarch < 10 then monthFromMarch + 3 else monthFromMarch - 9
  let year := (yearOfEra : Int) + era * 400
  ⟨if month ≤ 2 then year + 1 else year, month, dayOfYear - (153 * monthFromMarch + 2) / 5 + 1⟩

def twoDigits (n : Nat) : String := if n < 10 then s!"0{n}" else toString n

/-- Holds for the integers of so many bits, the sign among them. -/
def fits (bits : Nat) (n : Int) : Bool :=
  -(Nat.pow 2 (bits - 1) : Int) ≤ n && n < Nat.pow 2 (bits - 1)

/-- Date and time of a second, counted from the start of 1970. -/
def timestamp (seconds : Int) : Except TimeError String :=
  let date := Date.ofDay (seconds / 86400)
  let clock := (seconds % 86400).toNat
  if !fits 64 seconds then .error .beyondClock
  else if !fits 32 (date.year - 1900) then .error .beyondCalendar
  else if !fits 32 date.year then .error .beyondText
  else .ok <|
    s!"{date.year}-{twoDigits date.month}-{twoDigits date.day} " ++
      s!"{twoDigits (clock / 3600)}:{twoDigits (clock / 60 % 60)}:{twoDigits (clock % 60)}"

/-- The escape sequence that a level's lines begin with, if they have a colour. -/
def Level.color? : Level → Option String
  | debug => some "\x1b[36m"
  | info => some "\x1b[32m"
  | warning => some "\x1b[33m"
  | error => some "\x1b[31m"
  | critical => some "\x1b[31;1m"
  | other _ => none

def colorReset : String := "\x1b[0m"

/-- The name of a level, filled up to eight characters. -/
def Level.column (l : Level) : String :=
  String.ofList (l.name.toList ++ List.replicate (8 - l.name.length) ' ')

def line (seconds : Int) (level : Level) (name : String) (sourceLine : Int) (message : String) :
    Except TimeError String := do
  let time ← timestamp seconds
  let plain := s!"{time} | {level.column} | {name}:{sourceLine} - {message}"
  return match level.color? with
    | some color => color ++ plain ++ colorReset
    | none => plain

end LintDebt.Log
