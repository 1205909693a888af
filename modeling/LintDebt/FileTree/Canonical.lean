import LintDebt.FileTree.Access

/-! # The canonical path of a path

`resolve` replaces every link by what it leads to and applies `..` after that, so that two paths to
the same file get the same answer. It also takes paths to nothing: a name that is not there is kept.
A link is known by the path that led to it, and that path stays relative as long as no link leads
elsewhere. When a link is met again while its own target is being resolved, the names from that link
on are joined as they are, first those of the target and then those after the link; if the result
cannot be walked either, the path is refused. So is a path whose links lie too deep in each other's
targets. -/

namespace LintDebt

/-- Why a path has no canonical form. -/
inductive ResolveError where
  | nullCharacter
  | loop (path : String)
  | tooDeep
  deriving DecidableEq, Repr

/-- The links met so far by the paths that led to them, each with the path that it resolved to, or
nothing while its target is being resolved. -/
abbrev Links := List (Path × Option Path)

/-- Where a resolution ended: at the end of its path, at a link that led back to itself, or at one
too deep in the targets of others. -/
inductive ClimbEnd where
  | whole
  | looped
  | tooDeep
  deriving DecidableEq, Repr

/-- A path resolved as far as possible. -/
structure Climb where
  links : Links
  path : Path
  ending : ClimbEnd
  deriving DecidableEq, Repr

namespace Path

/-- The path one level up. A relative path can go up for ever. -/
def up (p : Path) : Path :=
  if p.root = .relative ∧ (p.names = [] ∨ p.names.getLast? = some "..") then
    { p with names := p.names ++ [".."] }
  else p.parent

/-- The path with the parts of a text after it. A text that begins with a slash is a path of its
own. -/
def extend (p : Path) (parts : List String) : Path :=
  match parts with
  | "" :: _ :: _ => ⟨rootOf (joinSlash parts), parts⟩
  | parts => { p with names := p.names ++ parts }

/-- Where the resolution of a path starts. -/
def origin (p : Path) : Path :=
  match p.root with
  | .relative => ⟨.relative, []⟩
  | _ => ⟨.absolute, []⟩

end Path

namespace FileTree

/-- Resolves the parts of a text one by one; `onLink` resolves the target of a link. -/
def climb (t : FileTree) (onLink : Links → Path → List String → Climb) (links : Links)
    (path : Path) : List String → Climb
  | [] => ⟨links, path, .whole⟩
  | name :: rest =>
    if name = "" ∨ name = "." then t.climb onLink links path rest
    else if name = ".." then t.climb onLink links path.up rest
    else
      let next := { path with names := path.names ++ [name] }
      match t.lstat next.text with
      | .ok (.link target) =>
        match links.lookup next with
        | some (some known) => t.climb onLink links known rest
        | some none => ⟨links, next.extend rest, .looped⟩
        | none =>
          let start := if (Path.parse target).root = .relative then path else ⟨.absolute, []⟩
          let inner := onLink ((next, none) :: links) start (slashParts target)
          if inner.ending = .whole then
            t.climb onLink ((next, some inner.path) :: inner.links) inner.path rest
          else { inner with path := inner.path.extend rest }
      | _ => t.climb onLink links next rest

/-- Resolves the parts of a text through links whose targets are nested at most so deep. -/
def climbWithin (t : FileTree) : (depth : Nat) → Links → Path → List String → Climb
  | 0 => t.climb fun links path parts => ⟨links, path.extend parts, .tooDeep⟩
  | depth + 1 => t.climb (t.climbWithin depth)

/-- The most links that may be open at once. Every one takes a nested call, and the calls that led to
the resolution count as well: the limit depends on how deep the caller is, and this is it for a caller
that is only a few calls deep. -/
def depthLimit : Nat := 990

def ascend (t : FileTree) (p : Path) : Climb := t.climbWithin depthLimit [] p.origin p.names

/-- Applies every `..` to the name before it. -/
def collapse (names : List String) : Location :=
  names.foldl (fun l name =>
    if name = "" ∨ name = "." then l
    else if name = ".." then l.dropLast
    else l ++ [name]) []

/-- An absolute path without `..`, by its text alone. -/
def absolute (t : FileTree) (p : Path) : Path :=
  match p.root with
  | .relative => .ofLocation (collapse (t.here ++ p.names))
  | root => ⟨root, collapse p.names⟩

def resolve (t : FileTree) (p : Path) : Except ResolveError Path :=
  if p.names.any (·.toList.contains '\x00') then .error .nullCharacter
  else
    let reached := t.ascend p
    if reached.ending = .tooDeep then .error .tooDeep
    else
      let path := t.absolute reached.path
      match t.stat path.text with
      | .error (.refused .tooManyLinks _ _) => .error (.loop path.text)
      | _ => .ok path

end FileTree
end LintDebt
