import LintDebt.Fault
import LintDebt.Glob.Pattern

/-! # Searching a tree by pattern

A pattern is a path whose names may be patterns. `**` as a whole name stands for any number of
directories on the way, none included, so that a pattern may find the very path before its `**`,
though never the base directory. Names that begin with a dot are found only by a pattern that begins
with a dot, and never by `**`.

A search writes down what it finds: the pattern's own text up to the first name with magic in it, and
then one name after the other. It looks for these texts, after that of the base directory, so that it
depends on them whether the system takes a path for too long. `**` that stands for no directory adds a
slash all the same. Of what is found, `resolvePattern` makes the files among it: canonical, sorted, and
each once. -/

namespace LintDebt.Glob

def isMagicChar (c : Char) : Bool := c = '*' || c = '?' || c = '['

def isMagic (name : String) : Bool := name.toList.any isMagicChar

def isHidden (name : String) : Bool := name.toList.head? = some '.'

/-- A name of a pattern, or the slash at its end, which asks for a directory. -/
inductive Part where
  | plain (name : String)
  | deep
  | wild (hidden : Bool) (tokens : List Token)
  | directory
  deriving DecidableEq, Repr

def Part.parse (name : String) : Part :=
  if name = "**" then .deep
  else if isMagic name then .wild (isHidden name) (tokens 0 name.toList)
  else .plain name

/-- A path as written without the slashes at its end, unless it has nothing else. -/
def bare (s : List Char) : List Char :=
  if s.all (· = '/') then s else (s.reverse.dropWhile (· = '/')).reverse

/-- The path of the directory that a path's last name is in; empty for a name alone. -/
def directoryPart (s : List Char) : List Char :=
  bare (s.reverse.dropWhile (· ≠ '/')).reverse

/-- The text that a search begins with: the pattern up to the first name with magic in it. -/
def leadOf (pattern : String) : String :=
  String.ofList (directoryPart (pattern.toList.takeWhile (!isMagicChar ·)))

/-- What is left of a pattern from the first name with magic in it on. -/
def partsOf (pattern : String) : List Part :=
  (((slashParts pattern).filter (· ≠ "")).dropWhile (!isMagic ·)).map Part.parse ++
    if pattern.toList.getLast? = some '/' then [.directory] else []

/-- The text under which the system is asked for what was found. -/
def seen (base : Path) (found : String) : String :=
  if found = "" then base.text else joinText base.text found

/-- The names in a directory; none if it cannot be listed. -/
def namesIn (t : FileTree) (directoriesOnly : Bool) (dir : String) : Except Fault (List String) :=
  match t.list dir with
  | .ok entries =>
    .ok ((entries.filter fun (_, isDir) => isDir || !directoriesOnly).map (·.1))
  | .error .nullCharacter => .error (.os .nullCharacter)
  | .error _ => .ok []

/-- The most directories that a search may be in at once. Every directory takes a nested call, and the
calls that led to the search count as well: the limit depends on how deep the caller is, and this is it
for a caller that is only a few calls deep. -/
def nestingLimit : Nat := 977

/-- Everything below a directory that is not hidden, as names from there on. `room` tells how many
directories the search may still go into. -/
def under (t : FileTree) (directoriesOnly : Bool) :
    (room : Nat) → String → Except Fault (List (List String))
  | 0, _ => .error (.tooDeep none)
  | room + 1, dir => do
    let names ← namesIn t directoriesOnly dir
    let found ← (names.filter (!isHidden ·)).mapM fun name => do
      let below ← under t directoriesOnly room (joinText dir name)
      return [name] :: below.map (name :: ·)
    return found.flatten

/-- What one part of a pattern finds from a directory. -/
def select (t : FileTree) (directoriesOnly : Bool) (dir : String) :
    Part → Except Fault (List (List String))
  | .plain name => .ok (if t.isPresent (joinText dir name) then [[name]] else [])
  | .directory => .ok (if t.isDirectory dir then [[]] else [])
  | .wild hidden tokens => do
    let names ← namesIn t directoriesOnly dir
    return (names.filter fun name => (hidden || !isHidden name) && covers tokens name.toList).map
      ([·])
  | .deep => do
    let below ← under t directoriesOnly nestingLimit dir
    -- What stands before the stars is found as it is, be it a file: this is the search as it was before
    -- it began to ask for a directory here.
    return [] :: below

/-- What the parts of a pattern find one after the other. All but the last have to be directories. -/
def selectAll (t : FileTree) (base : Path) : List Part → List String → Except Fault (List String)
  | [], found => .ok found
  | part :: rest, dirs => do
    let found ← dirs.mapM fun dir => do
      return (← select t (!rest.isEmpty) (seen base dir) part).map (joinNames dir)
    selectAll t base rest found.flatten.eraseDups

/-- The most parts that a pattern may have from its first magic part on. Every part takes a nested call,
so this limit too depends on how deep the caller is. -/
def partLimit : Nat := 980

/-- The texts of what a pattern finds, seen from a base directory unless the pattern is absolute. -/
def find (t : FileTree) (base : Path) (pattern : String) : Except Fault (List String) :=
  if isMagic pattern then do
    let parts := partsOf pattern
    if partLimit < parts.length then throw (.tooDeep none)
    return (← selectAll t base parts [leadOf pattern]).filter (· ≠ "")
  else
    let isThere :=
      if pattern.toList.getLast? = some '/' then
        t.isDirectory (seen base (String.ofList (directoryPart pattern.toList)))
      else pattern ≠ "" && t.isPresent (seen base pattern)
    .ok (if isThere then [pattern] else [])

def resolvePattern (t : FileTree) (base : Path) (pattern : String) : Except Fault (List Path) := do
  let found ← find t base pattern
  let resolved ← found.mapM fun text =>
    (t.resolve (base.join (.parse text))).mapError Fault.ofResolve
  let files ← resolved.eraseDups.filterM fun p => (t.isFile p.text).mapError .os
  return files.mergeSort Path.le

end LintDebt.Glob
