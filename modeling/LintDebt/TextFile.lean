import LintDebt.Text.Lines
import LintDebt.ToolError

/-! # Text files

Reading and writing whole files as text, with the tool's own errors. A missing file is told apart
from one that cannot be read, and both from a path about which the system refuses to answer.
`pieces` keeps all of the text but its line ends; `lines` is what a line-by-line reader sees. -/

namespace LintDebt.TextFile

def require (t : FileTree) (p : Path) : Except Failure Unit := do
  if ← liftOs (t.existsAt p.text) then return ()
  throw (.tool (.missing p.text))

def decode (octets : List UInt8) : Except Fault (List Char) :=
  (Utf8.decode octets).mapError .undecodable

/-- The octets of a file that has to be there. -/
def octets (t : FileTree) (p : Path) : Except Failure (List UInt8) := do
  require t p
  (t.read p.text).mapError fun e => .tool (.unreadable (.os e) p.text)

/-- The text of a file with LF at every line end. -/
def read (t : FileTree) (p : Path) : Except Failure (List Char) := do
  let text ← (decode (← octets t p)).mapError fun f => .tool (.unreadable f p.text)
  return Text.normalize text

/-- The pieces of a file's text between line ends. -/
def pieces (t : FileTree) (p : Path) : Except Failure (List String) := do
  return (Text.pieces (← read t p)).map String.ofList

/-- The lines of a file up to where they stop. -/
def stream (t : FileTree) (p : Path) : Except Failure Text.Stream := do
  return Text.stream (← octets t p)

/-- The error that stops a stream of lines, if one does. -/
def streamEnd (p : Path) (s : Text.Stream) : Except Failure Unit :=
  match s.error with
  | none => .ok ()
  | some e => .error (.tool (.unreadable (.undecodable e) p.text))

def lines (t : FileTree) (p : Path) : Except Failure (List String) := do
  let s ← stream t p
  streamEnd p s
  return s.lines.map String.ofList

/-- The size of a file in octets, and its length in pieces. -/
structure Stats where
  size : Nat
  length : Nat
  deriving DecidableEq, Repr

/-- Measures a file. Octets that are not a text are a fault here, and not an error of the tool's. -/
def measure (t : FileTree) (p : Path) : Except Failure Stats := do
  require t p
  let octets ← (t.read p.text).mapError fun e => .tool (.unmeasurable (.os e) p.text)
  let text ← liftFault (decode octets)
  return ⟨octets.length, (Text.pieces (Text.normalize text)).length⟩

/-- A refusal as an error of the tool's; a path that never gets to the tree stays a fault. -/
def refusal (wrap : Fault → ToolError) : OsError → Failure
  | .nullCharacter => .fault (.os .nullCharacter)
  | e => .tool (wrap (.os e))

def replace (t : FileTree) (p : Path) (octets : List UInt8) : Except Failure FileTree :=
  (t.write p.text octets).mapError (refusal fun f => .unwritable f p.text)

def write (t : FileTree) (p : Path) (text : List Char) : Except Failure FileTree :=
  replace t p (Utf8.encode text)

def rename (t : FileTree) (source target : String) : Except Failure FileTree :=
  (t.rename source target).mapError (refusal fun f => .unmovable f source target)

end LintDebt.TextFile
