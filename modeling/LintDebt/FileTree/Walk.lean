import LintDebt.FileTree.Basic

/-! # From a path to a location

A walk takes the names of a path one by one. It follows a link wherever more names come after it,
and at the end only if asked to. Every name but the last must lead to a directory; the last one may
be vacant, which matters to whoever wants to create it. A walk that meets more than `linkLimit`
links gives up, and names and whole paths have a greatest length in octets. -/

namespace LintDebt

/-- The causes for which the system refuses an operation on files. -/
inductive OsCode where
  | noEntry
  | busy
  | alreadyThere
  | notDirectory
  | isDirectory
  | invalid
  | nameTooLong
  | notEmpty
  | tooManyLinks
  deriving DecidableEq, Repr

def OsCode.number : OsCode → Nat
  | noEntry => 2
  | busy => 16
  | alreadyThere => 17
  | notDirectory => 20
  | isDirectory => 21
  | invalid => 22
  | nameTooLong => 36
  | notEmpty => 39
  | tooManyLinks => 40

def OsCode.text : OsCode → String
  | noEntry => "No such file or directory"
  | busy => "Device or resource busy"
  | alreadyThere => "File exists"
  | notDirectory => "Not a directory"
  | isDirectory => "Is a directory"
  | invalid => "Invalid argument"
  | nameTooLong => "File name too long"
  | notEmpty => "Directory not empty"
  | tooManyLinks => "Too many levels of symbolic links"

/-- A path as the system reads it: a slash at the end asks for a directory, and so does a final
dot. `size` is the number of octets of the whole path. -/
structure Route where
  absolute : Bool
  names : List String
  slashed : Bool
  size : Nat
  deriving DecidableEq, Repr

def Route.parse (s : String) : Route where
  absolute := s.toList.head? = some '/'
  names := (slashParts s).filter (· ≠ "")
  slashed := s.toList.getLast? = some '/'
  size := s.utf8ByteSize

/-- The route of the empty text, which leads nowhere. -/
def Route.isEmpty (r : Route) : Bool := !r.absolute && r.names.isEmpty

/-- All that has to be walked. -/
def Route.steps (r : Route) : List String :=
  if r.slashed then r.names ++ ["."] else r.names

/-- Where a walk ended: at a node, or at a name that an existing directory does not hold. -/
inductive Spot where
  | found (l : Location)
  | vacant (directory : Location) (name : String)
  deriving DecidableEq, Repr

namespace FileTree

def linkLimit : Nat := 40

/-- The most octets that a name may have. -/
def nameLimit : Nat := 255

/-- The most octets that a path may have. -/
def pathLimit : Nat := 4095

/-- A path that the system does not even begin to walk. -/
def checkRoute (r : Route) : Except OsCode Unit :=
  if r.isEmpty then .error .noEntry
  else if pathLimit < r.size then .error .nameTooLong
  else .ok ()

def start (t : FileTree) (r : Route) : Location :=
  if r.absolute then [] else t.here

/-- Walks the names, from a directory on; `onLink` goes on from a link that is followed. -/
def steps (t : FileTree) (follow : Bool) (onLink : Location → List String → Except OsCode Spot)
    (place : Location) : List String → Except OsCode Spot
  | [] => .ok (.found place)
  | name :: rest =>
    if name = "." then t.steps follow onLink place rest
    else if name = ".." then t.steps follow onLink place.dropLast rest
    else if nameLimit < name.utf8ByteSize then .error .nameTooLong
    else
      let l := place ++ [name]
      match t.node? l with
      | none => if rest = [] then .ok (.vacant place name) else .error .noEntry
      | some .directory => t.steps follow onLink l rest
      | some (.file _) => if rest = [] then .ok (.found l) else .error .notDirectory
      | some (.link target) =>
        if rest = [] ∧ !follow then .ok (.found l)
        else if target = "" then .error .noEntry
        else
          let r := Route.parse target
          onLink (if r.absolute then [] else place) (r.steps ++ rest)

/-- Walks the names through at most so many links. -/
def walk (t : FileTree) (follow : Bool) : Nat → Location → List String → Except OsCode Spot
  | 0 => t.steps follow fun _ _ => .error .tooManyLinks
  | links + 1 => t.steps follow (t.walk follow links)

def seek (t : FileTree) (follow : Bool) (r : Route) : Except OsCode Spot := do
  checkRoute r
  t.walk follow linkLimit (t.start r) r.steps

/-- The location and the node that a route leads to. -/
def lookup (t : FileTree) (follow : Bool) (r : Route) : Except OsCode (Location × Node) := do
  match ← t.seek follow r with
  | .vacant _ _ => .error .noEntry
  | .found l => match t.node? l with
    | some n => .ok (l, n)
    | none => .error .noEntry

end FileTree
end LintDebt
