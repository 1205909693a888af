/-! # Blank characters

Two classes of white space. `isSpace` is the `White_Space` property of Unicode. `isBlank` also
holds the four information separators, which end a field on some systems and are blank to every
reader of an ignore list here. `trim` removes blanks at both ends. -/

namespace LintDebt.Text

/-- Holds exactly for the characters with the `White_Space` property. -/
def isSpace (c : Char) : Bool :=
  ('\t' ≤ c && c ≤ '\r') || c == ' ' || c == '\u0085' || c == '\u00a0' || c == '\u1680' ||
  ('\u2000' ≤ c && c ≤ '\u200a') || c == '\u2028' || c == '\u2029' || c == '\u202f' ||
  c == '\u205f' || c == '\u3000'

/-- A space or one of the four information separators. -/
def isBlank (c : Char) : Bool :=
  isSpace c || ('\x1c' ≤ c && c ≤ '\x1f')

def trimEnd (s : List Char) : List Char :=
  (s.reverse.dropWhile isBlank).reverse

def trim (s : List Char) : List Char :=
  trimEnd (s.dropWhile isBlank)

end LintDebt.Text
