import LintDebt.Text.Utf8

/-! # Lines of a text

A line ends with LF, CR LF or CR. `normalize` makes all three LF, `pieces` cuts at LF and keeps the
last piece even when it is empty, so that `unlines` restores the text.

`Stream` is what a reader that yields lines while it decodes gets: a leading byte order mark is no
part of the first line, and a last line that is empty is not yielded. The reader takes `chunkSize`
octets at a time and decodes them together with what the chunks before left of a character. An octet
that cannot stand in the text stops it after the last line that was finished by the chunks before, and
its error counts from where the decoding of its own chunk began. A sequence cut off by the end of the
file stops it after the last finished line, and is then all the input that is left, so its error counts
from zero. -/

namespace LintDebt.Text

/-- Every line end written as LF. -/
def normalize : List Char → List Char
  | [] => []
  | '\r' :: '\n' :: s => '\n' :: normalize s
  | c :: s => (if c = '\r' then '\n' else c) :: normalize s

/-- The pieces between LFs; there is always at least one. -/
def pieces (s : List Char) : List (List Char) := s.splitOn '\n'

/-- The units of the text whose pieces these are. -/
def unlines (ps : List Units) : Units := (unitsOf "\n").intercalate ps

/-- The pieces without the last one if it is empty. -/
def lines (s : List Char) : List (List Char) :=
  let ps := pieces (normalize s)
  if ps.getLast? = some [] then ps.dropLast else ps

/-- The lines that are known to be finished before the end of the input is seen. A CR at the end
may be half of a CR LF, so it finishes nothing yet. -/
def finishedLines (s : List Char) : List (List Char) :=
  let known := if s.getLast? = some '\r' then s.dropLast else s
  (pieces (normalize known)).dropLast

/-- The lines a reader gets, and the error that stops it after them. -/
structure Stream where
  lines : List (List Char)
  error : Option Utf8.Error
  deriving DecidableEq, Repr

/-- The octets after a leading byte order mark. A file that holds only a part of the mark is taken
for one that would have begun with it. -/
def afterMark (octets : List UInt8) : List UInt8 :=
  if octets.isPrefixOf Utf8.byteOrderMark then []
  else if Utf8.byteOrderMark.isPrefixOf octets then octets.drop 3
  else octets

/-- How many octets a reader of lines asks for at a time. -/
def chunkSize : Nat := 8192

/-- What a reader gets of octets after a mark of so many octets when one of them cannot stand in the
text. -/
def refusedStream (mark : Nat) (octets : List UInt8) (e : Utf8.Error) : Stream :=
  let earlier := (mark + e.refusedAt) / chunkSize * chunkSize - mark
  let decoded := Utf8.scan (octets.take earlier)
  let start := match decoded.stop with
    | .cut p => p.position
    | _ => earlier
  ⟨finishedLines decoded.text, some { e with position := e.position - start }⟩

def stream (octets : List UInt8) : Stream :=
  let rest := afterMark octets
  match Utf8.scan rest with
  | ⟨text, .complete⟩ => ⟨lines text, none⟩
  | ⟨text, .cut p⟩ => ⟨finishedLines text, some { p.error .unexpectedEnd with position := 0 }⟩
  | ⟨_, .refused e⟩ => refusedStream (octets.length - rest.length) rest e

end LintDebt.Text
