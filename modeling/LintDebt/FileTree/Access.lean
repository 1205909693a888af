import LintDebt.FileTree.Walk
import LintDebt.Text.Quoted

/-! # Operations on files

Each operation takes a path as written, changes the tree or leaves it alone, and when it is refused
says why, with the path as it was given. What refuses is the shape of the tree and the length of the
path: permissions, full disks and failing devices are no part of a tree, so no operation is refused
because of them. -/

namespace LintDebt

/-- A refusal. A path that holds U+0000 never gets as far as the tree. -/
inductive OsError where
  | refused (code : OsCode) (path : String) (target : Option String)
  | nullCharacter
  deriving DecidableEq, Repr

def OsError.message : OsError → String
  | refused code path none => s!"[Errno {code.number}] {code.text}: {Text.quoted path}"
  | refused code path (some target) =>
    s!"[Errno {code.number}] {code.text}: {Text.quoted path} -> {Text.quoted target}"
  | nullCharacter => "embedded null byte"

/-- The route that a written path stands for. -/
def Route.of (path : String) : Except OsError Route :=
  if path.toList.contains '\x00' then .error .nullCharacter else .ok (.parse path)

/-- Adds the path to a refusal. -/
def refusing (path : String) (target : Option String) (x : Except OsCode α) : Except OsError α :=
  x.mapError fun code => .refused code path target

namespace FileTree

/-- What a path leads to, links followed. -/
def stat (t : FileTree) (path : String) : Except OsError Node := do
  let r ← Route.of path
  return (← refusing path none (t.lookup true r)).2

/-- What a path leads to, a link at its end not followed. -/
def lstat (t : FileTree) (path : String) : Except OsError Node := do
  let r ← Route.of path
  return (← refusing path none (t.lookup false r)).2

/-- Holds for a refusal that means that there is nothing at the path. -/
def isAbsence : OsError → Bool
  | .nullCharacter => true
  | .refused code _ _ => code = .noEntry ∨ code = .notDirectory ∨ code = .tooManyLinks

/-- The answer to a question about a path; what is not there has no property. -/
def holdsAt (x : Except OsError Bool) : Except OsError Bool :=
  match x with
  | .error e => if isAbsence e then .ok false else .error e
  | known => known

/-- Whether a path leads to anything, links followed. -/
def existsAt (t : FileTree) (path : String) : Except OsError Bool :=
  holdsAt ((t.stat path).map fun _ => true)

/-- Whether a path leads to a file, links followed. -/
def isFile (t : FileTree) (path : String) : Except OsError Bool :=
  holdsAt ((t.stat path).map fun n => n matches .file _)

/-- Holds also for a link that leads nowhere. -/
def isPresent (t : FileTree) (path : String) : Bool :=
  match t.lstat path with
  | .ok _ => true
  | .error _ => false

def isDirectory (t : FileTree) (path : String) : Bool :=
  match t.stat path with
  | .ok .directory => true
  | _ => false

def read (t : FileTree) (path : String) : Except OsError (List UInt8) := do
  match ← t.stat path with
  | .file octets => .ok octets
  | _ => .error (.refused .isDirectory path none)

/-- Replaces the content of a file, or creates it in a directory that exists. A file that is there can
always be written: a tree knows neither read-only files nor full disks. -/
def write (t : FileTree) (path : String) (octets : List UInt8) : Except OsError FileTree := do
  let r ← Route.of path
  match ← refusing path none (t.seek true r) with
  | .vacant directory name => .ok (t.put (directory ++ [name]) (.file octets))
  | .found l => match t.node? l with
    | some (.file _) => .ok (t.put l (.file octets))
    | _ => .error (.refused .isDirectory path none)

/-- Whether a directory is behind one of the entries of a directory. Only a link has to be followed,
and so looked for by its path. -/
def entryIsDirectory (t : FileTree) (l : Location) (path : String) : Bool :=
  match t.node? l with
  | some .directory => true
  | some (.link _) => t.isDirectory path
  | _ => false

/-- The names in a directory, and whether a directory is behind them. -/
def list (t : FileTree) (path : String) : Except OsError (List (String × Bool)) := do
  let r ← Route.of path
  match ← refusing path none (t.lookup true r) with
  | (l, .directory) =>
    .ok ((t.childNames l).map fun name =>
      (name, t.entryIsDirectory (l ++ [name]) (joinText path name)))
  | _ => .error (.refused .notDirectory path none)

def makeDirectory (t : FileTree) (path : String) : Except OsError FileTree := do
  let r ← Route.of path
  match ← refusing path none (t.seek false { r with slashed := false }) with
  | .vacant directory name => .ok (t.put (directory ++ [name]) .directory)
  | .found _ => .error (.refused .alreadyThere path none)

/-- Creates a directory unless it is there already. -/
def ensureDirectory (t : FileTree) (path : String) : Except OsError FileTree :=
  match t.makeDirectory path with
  | .ok t => .ok t
  | .error e => do
    if ← holdsAt ((t.stat path).map (· = .directory)) then .ok t else .error e

/-- The directory of a route's last name, and that name. A route that ends in a dot has none. -/
def splitLast (t : FileTree) (r : Route) : Except OsCode (Location × Option String) := do
  checkRoute r
  match ← t.walk true linkLimit (t.start r) r.names.dropLast with
  | .vacant _ _ => .error .noEntry
  | .found l =>
    if t.node? l ≠ some .directory then .error .notDirectory
    else
      let name := r.names.getLast?.filter fun name => name ≠ "." ∧ name ≠ ".."
      .ok (l, name)

/-- Moves the node at `source` to `target`, with all below it, over what stands there. -/
def relocate (t : FileTree) (source target : Location) (n : Node) : FileTree :=
  match n with
  | .directory =>
    (t.below source).foldl (fun t (k, n) => t.put (target ++ k) n)
      (((t.prune source).prune target).put target n)
  | n => (t.erase source).put target n

/-- Renames a node, replacing a file by a file or an empty directory by a directory. -/
def renameOn (t : FileTree) (source target : Route) : Except OsCode FileTree := do
  let (sourceDir, sourceName) ← t.splitLast source
  let (targetDir, targetName) ← t.splitLast target
  match sourceName, targetName with
  | some sourceName, some targetName =>
    let s := sourceDir ++ [sourceName]
    let d := targetDir ++ [targetName]
    if nameLimit < sourceName.utf8ByteSize then throw .nameTooLong
    match t.node? s with
    | none => .error .noEntry
    | some n =>
      if nameLimit < targetName.utf8ByteSize then throw .nameTooLong
      let isDir := n = .directory
      if !isDir ∧ (source.slashed ∨ target.slashed) then .error .notDirectory
      else if s.isPrefixOf targetDir then .error .invalid
      else if d.isPrefixOf sourceDir then .error .notEmpty
      else if s = d then .ok t
      else match t.node? d with
        | none => .ok (t.relocate s d n)
        | some .directory =>
          if !isDir then .error .isDirectory
          else if (t.childNames d).isEmpty then .ok (t.relocate s d n)
          else .error .notEmpty
        | some _ => if isDir then .error .notDirectory else .ok (t.relocate s d n)
  | _, _ => .error .busy

def rename (t : FileTree) (source target : String) : Except OsError FileTree := do
  let s ← Route.of source
  let d ← Route.of target
  refusing source (some target) (t.renameOn s d)

def makeLink (t : FileTree) (path target : String) : Except OsError FileTree := do
  let r ← Route.of path
  match ← refusing path none (t.seek false r) with
  | .vacant directory name => .ok (t.put (directory ++ [name]) (.link target))
  | .found _ => .error (.refused .alreadyThere path none)

/-- Takes away a file, a link, or a directory with all in it. -/
def remove (t : FileTree) (path : String) : Except OsError FileTree := do
  let r ← Route.of path
  return t.prune (← refusing path none (t.lookup false r)).1

end FileTree
end LintDebt
