import LintDebt.Log.Record
import LintDebt.Text.Blank
import LintDebt.TextFile

/-! # Blanket comments

A file whose first line that is not blank is a bare disable comment is suppressed as a whole. -/

namespace LintDebt.Blanket

/-- Holds for a trimmed line that disables every rule. -/
def isBlanket (line : List Char) : Bool :=
  match "/*".toList.isPrefixOf? line with
  | none => false
  | some rest =>
    match "stylelint-disable".toList.isPrefixOf? (rest.dropWhile Text.isBlank) with
    | none => false
    | some rest => rest.dropWhile Text.isBlank = "*/".toList

def firstLine? (lines : List (List Char)) : Option (List Char) :=
  (lines.map Text.trim).find? (· ≠ [])

/-- Holds for a file that is suppressed as a whole. What comes after its first line does not matter,
unless the reader had to look at it. -/
def covers (t : FileTree) (p : Path) : Except Failure Bool := do
  let s ← TextFile.stream t p
  match firstLine? s.lines with
  | some line => return isBlanket line
  | none =>
    TextFile.streamEnd p s
    return false

/-- Tells whether a file is kept: it is not suppressed as a whole, or cannot be read. -/
def keeps (t : FileTree) (p : Path) : Traced Failure Bool :=
  match covers t p with
  | .ok true => do
    Traced.note .debug .ignoreList s!"Skipping {p}, already stylelint-disabled"
    return false
  | .ok false => return true
  | .error (.tool e) => do
    Traced.note .error .ignoreList
      s!"Error: filtering files containing a stylelint-disable comment - {e.message}"
    return true
  | .error f => .ofExcept (.error f)

/-- Leaves out the files that are suppressed as a whole. -/
def filter (t : FileTree) : List Path → Traced Failure (List Path)
  | [] => return []
  | p :: rest => do
    let kept ← keeps t p
    let others ← filter t rest
    return if kept then p :: others else others

end LintDebt.Blanket
