/-! # Paths

A path is kept in normal form: no empty name and no `.` among its names, while `..` stays, because
what it leads to depends on the links before it. One leading slash makes a path absolute; exactly
two are kept as two. -/

namespace LintDebt

inductive Root where
  | relative
  | absolute
  | doubled
  deriving DecidableEq, Repr, Inhabited

structure Path where
  root : Root
  names : List String
  deriving DecidableEq, Repr, Inhabited

/-- How many slashes a root is written with. -/
def Root.width : Root → Nat
  | relative => 0
  | absolute => 1
  | doubled => 2

/-- A place in a file tree: the names from the top down, none of them `.` or `..`. -/
abbrev Location := List String

/-- The parts of a text between slashes. -/
def slashParts (s : String) : List String :=
  (s.toList.splitOn '/').map String.ofList

def joinSlash (names : List String) : List Char :=
  ['/'].intercalate (names.map String.toList)

/-- A path as written, with more of it after a slash. What begins with a slash is a path of its own. -/
def joinText (path more : String) : String :=
  if more.toList.head? = some '/' then more
  else if path = "" ∨ path.toList.getLast? = some '/' then path ++ more
  else path ++ "/" ++ more

def joinNames (path : String) (names : List String) : String :=
  joinText path (String.ofList (joinSlash names))

namespace Path

def rootOf (s : List Char) : Root :=
  match s with
  | '/' :: '/' :: '/' :: _ => .absolute
  | '/' :: '/' :: _ => .doubled
  | '/' :: _ => .absolute
  | _ => .relative

/-- The path without the names that lead nowhere. -/
def normal (p : Path) : Path :=
  { p with names := p.names.filter fun name => name ≠ "" ∧ name ≠ "." }

/-- The normal form of a path as written. -/
def parse (s : String) : Path := normal ⟨rootOf s.toList, slashParts s⟩

/-- The written form of a path; the empty relative path is `.`. -/
def text (p : Path) : String :=
  match p.root, p.names with
  | .relative, [] => "."
  | .relative, names => String.ofList (joinSlash names)
  | .absolute, names => String.ofList ('/' :: joinSlash names)
  | .doubled, names => String.ofList ('/' :: '/' :: joinSlash names)

instance : ToString Path := ⟨text⟩

def ofLocation (l : Location) : Path := ⟨.absolute, l⟩

/-- `q` seen from `p`; an absolute `q` does not depend on `p`. -/
def join (p q : Path) : Path :=
  match q.root with
  | .relative => { p with names := p.names ++ q.names }
  | _ => q

instance : HDiv Path Path Path := ⟨join⟩

/-- The path of the directory that holds the last name. -/
def parent (p : Path) : Path := { p with names := p.names.dropLast }

def name? (p : Path) : Option String := p.names.getLast?

/-- The order of absolute paths: first those that begin with one slash, then name by name. -/
def order : Path → Path → Ordering :=
  compareLex (compareOn fun p => p.root.width) (compareOn fun p => p.names)

def le (p q : Path) : Bool := (order p q).isLE

end Path
end LintDebt
