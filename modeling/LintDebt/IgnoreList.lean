import LintDebt.Blanket
import LintDebt.Glob.Search

/-! # The ignore list

The list has one pattern a line; blank lines and lines that begin with `#` say nothing. A pattern is
kept as it is written, with the files it finds. A pattern that finds none is dropped, and one that
is written twice counts once, in its first place. -/

namespace LintDebt

/-- How a line becomes a pattern: a line that does not end like a file name of interest names a
directory, and gets the pattern for the files below it. -/
structure PatternRule where
  fileSuffix : String
  directoryGlob : String
  deriving DecidableEq, Repr

def PatternRule.standard : PatternRule := ⟨".css", "**/*.css"⟩

def PatternRule.expand (rule : PatternRule) (line : String) : String :=
  if rule.fileSuffix.toList.isSuffixOf line.toList then line
  else if line.toList.getLast? = some '/' then line ++ rule.directoryGlob
  else line ++ "/" ++ rule.directoryGlob

namespace IgnoreList

structure Entry where
  pattern : String
  files : List Path
  deriving DecidableEq, Repr

end IgnoreList

abbrev IgnoreList := List IgnoreList.Entry

namespace IgnoreList

/-- Sets the files of a pattern; a pattern that is there keeps its place. -/
def put (m : IgnoreList) (e : Entry) : IgnoreList :=
  if m.any (·.pattern == e.pattern) then m.map fun f => if f.pattern == e.pattern then e else f
  else m ++ [e]

def ofListed (entries : List Entry) : IgnoreList := entries.foldl put []

/-- Holds for a line without a pattern. -/
def isRemark (line : String) : Bool :=
  let s := Text.trim line.toList
  s.isEmpty || s.head? = some '#'

def readLine (t : FileTree) (base : Path) (rule : PatternRule) (m : IgnoreList) (line : String) :
    Traced Failure IgnoreList :=
  if isRemark line then pure m
  else do
    let files ← .ofExcept (liftFault (Glob.resolvePattern t base (rule.expand line)))
    if files.isEmpty then
      Traced.note .debug .ignoreList s!"Pattern {Text.quoted line} matches no files, dropping it"
      return m
    return m.put ⟨line, files⟩

def readLines (t : FileTree) (base : Path) (rule : PatternRule) :
    IgnoreList → List String → Traced Failure IgnoreList
  | m, [] => pure m
  | m, line :: rest => do
    let m ← readLine t base rule m line
    readLines t base rule m rest

def read (t : FileTree) (p base : Path) (rule : PatternRule) : Traced Failure IgnoreList := do
  let s ← .ofExcept (TextFile.stream t p)
  let m ← readLines t base rule [] (s.lines.map String.ofList)
  Traced.ofExcept (TextFile.streamEnd p s)
  return m

/-- The files of all patterns, each once, in the order of the list. -/
def files (m : IgnoreList) : List Path := (m.flatMap Entry.files).eraseDups

/-- The patterns that still have files when those suppressed as a whole are left out. -/
def withoutCovered (t : FileTree) : IgnoreList → Traced Failure IgnoreList
  | [] => return []
  | e :: rest => do
    let files ← Blanket.filter t e.files
    let others ← withoutCovered t rest
    return if files.isEmpty then others else { e with files } :: others

/-- Holds for a pattern with files in the list. -/
def keeps (m : IgnoreList) (pattern : String) : Bool :=
  m.any fun e => e.pattern == pattern && !e.files.isEmpty

def renderLines (lines : List String) : List Char :=
  lines.flatMap fun line => line.toList ++ ['\n']

/-- The patterns with files, one a line. -/
def render (m : IgnoreList) : List Char :=
  renderLines ((m.filter (!·.files.isEmpty)).map Entry.pattern)

/-- The lines of an earlier version that say nothing or have a pattern with files. -/
def renderOver (m : IgnoreList) (earlier : List String) : List Char :=
  renderLines (earlier.filter fun line => isRemark line || m.keeps line)

end IgnoreList
end LintDebt
