import LintDebt.Path
import Std.Data.ExtTreeMap

/-! # File trees

A tree is a finite map from locations to nodes, together with the location that relative paths
start from. Two trees with the same nodes are equal. The top is a directory that needs no entry. -/

namespace LintDebt

inductive Node where
  | file (octets : List UInt8)
  | directory
  | link (target : String)
  deriving DecidableEq, Repr, Inhabited

structure FileTree where
  nodes : Std.ExtTreeMap Location Node
  here : Location

namespace FileTree

def node? (t : FileTree) (l : Location) : Option Node :=
  if l = [] then some .directory else t.nodes[l]?

def put (t : FileTree) (l : Location) (n : Node) : FileTree :=
  { t with nodes := t.nodes.insert l n }

def erase (t : FileTree) (l : Location) : FileTree :=
  { t with nodes := t.nodes.erase l }

/-- The locations with a node, in increasing order. -/
def locations (t : FileTree) : List Location := t.nodes.keys

/-- The names directly below a location, in increasing order. -/
def childNames (t : FileTree) (l : Location) : List String :=
  t.locations.filterMap fun k => if k ≠ [] ∧ k.dropLast = l then k.getLast? else none

/-- The tree without a location and all below it. -/
def prune (t : FileTree) (l : Location) : FileTree :=
  { t with nodes := t.nodes.filter fun k _ => !l.isPrefixOf k }

/-- The nodes below `l`, each with its location seen from `l`. -/
def below (t : FileTree) (l : Location) : List (Location × Node) :=
  t.nodes.toList.filterMap fun (k, n) =>
    if l.isPrefixOf k ∧ k ≠ l then some (k.drop l.length, n) else none

end FileTree
end LintDebt
