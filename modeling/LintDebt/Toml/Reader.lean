import LintDebt.Toml.Scalar

/-! # Reading TOML

A document is read statement by statement into a table. What may not be written twice is kept
beside it: `declared` holds the keys of the tables that a header opened or a dotted key made, and
`closed` the keys of values that are complete and take nothing more. A table that a dotted key made
may still be extended by such keys in the same section, so it counts as declared only from the next
header on; until then its key is in `pending`.

Values may lie in each other only so deep. An array costs two steps of `depthLimit` and an inline
table three, and `room` is what is left of them. -/

namespace LintDebt.Toml

def skipIndent (s : List Char) : List Char := s.dropWhile isIndent

def skipComment (s : List Char) : Except Error (List Char) :=
  match s with
  | '#' :: rest =>
    let (body, rest) := rest.span (· ≠ '\n')
    if body.any isControl then .error .malformed else .ok rest
  | s => .ok s

/-- Passes over blanks, line ends and comments, of which there are at most `bound`. -/
def skipFiller : (bound : Nat) → List Char → Except Error (List Char)
  | 0, s => .ok s
  | bound + 1, s =>
    match s.dropWhile fun c => isIndent c || c = '\n' with
    | '#' :: rest => do skipFiller bound (← skipComment ('#' :: rest))
    | rest => .ok rest

def isBare (c : Char) : Bool := c.isAlphanum || c = '-' || c = '_'

def keyName (s : List Char) : Step String :=
  match s with
  | [] => .error .malformed
  | '"' :: rest => (escaped false .inText rest).map fun (name, rest) => (String.ofList name, rest)
  | '\'' :: rest => (literal false rest).map fun (name, rest) => (String.ofList name, rest)
  | c :: rest =>
    if isBare c then
      let (name, rest) := rest.span isBare
      .ok (String.ofList (c :: name), rest)
    else .error .malformed

/-- A key of at most so many names after the first, and the blanks after it. -/
def key : (bound : Nat) → List Char → Except Error (Key × List Char)
  | bound, s => do
    let (name, rest) ← keyName s
    match bound, skipIndent rest with
    | bound + 1, '.' :: rest => do
      let (names, rest) ← key bound (skipIndent rest)
      return (name :: names, rest)
    | _, rest => return ([name], rest)

/-- Holds if a closed key leads to the given one. -/
def isClosed (closed : List Key) (k : Key) : Bool := closed.any (·.isPrefixOf k)

/-- Values that are complete once they are read. -/
def isComposite : Toml → Bool
  | .array _ | .table _ => true
  | _ => false

/-- The depth that a value on a line of its own may have. As nested values take nested calls, the limit
depends on how deep the caller is. -/
def depthLimit : Nat := 988

mutual

def value : (bound : Nat) → (room : Nat) → List Char → Except Error (Toml × List Char)
  | 0, _, _ => .error .malformed
  | bound + 1, room, s =>
    match s with
    | '[' :: rest => do
      if room < 2 then .error .tooDeep
      let rest ← skipFiller rest.length rest
      let (items, rest) ← itemsOf bound (room - 2) rest
      return (.array items, rest)
    | '{' :: rest => do
      if room < 3 then .error .tooDeep
      match skipIndent rest with
      | '}' :: rest => return (.table [], rest)
      | rest =>
        let (entries, rest) ← entriesOf bound (room - 3) [] [] rest
        return (.table entries, rest)
    | s => scalar s

def itemsOf : (bound : Nat) → (room : Nat) → List Char → Except Error (List Toml × List Char)
  | 0, _, _ => .error .malformed
  | bound + 1, room, s => do
    match s with
    | ']' :: rest => return ([], rest)
    | s =>
      let (item, rest) ← value bound room s
      let rest ← skipFiller rest.length rest
      match rest with
      | ']' :: rest => return ([item], rest)
      | ',' :: rest =>
        let rest ← skipFiller rest.length rest
        let (items, rest) ← itemsOf bound room rest
        return (item :: items, rest)
      | _ => .error .malformed

def entriesOf : (bound : Nat) → (room : Nat) → Table → List Key → List Char →
    Except Error (Table × List Char)
  | 0, _, _, _, _ => .error .malformed
  | bound + 1, room, entries, closed, s => do
    let (k, item, rest) ← entry bound room s
    if isClosed closed k then .error .malformed
    let entries ← entries.modify false (Table.add (k.getLastD "") item) k.dropLast
    match skipIndent rest with
    | '}' :: rest => return (entries, rest)
    | ',' :: rest =>
      let closed := if isComposite item then k :: closed else closed
      entriesOf bound room entries closed (skipIndent rest)
    | _ => .error .malformed

def entry : (bound : Nat) → (room : Nat) → List Char → Except Error (Key × Toml × List Char)
  | 0, _, _ => .error .malformed
  | bound + 1, room, s => do
    let (k, rest) ← key s.length s
    match rest with
    | '=' :: rest =>
      let (item, rest) ← value bound room (skipIndent rest)
      return (k, item, rest)
    | _ => .error .malformed

end

/-- A document as far as it has been read. -/
structure Draft where
  table : Table
  declared : List Key
  closed : List Key
  pending : List Key
  header : Key

namespace Draft

def empty : Draft := ⟨[], [], [], [], []⟩

/-- A header ends the section before it. -/
def endSection (d : Draft) : Draft :=
  { d with declared := d.pending ++ d.declared, pending := [] }

def openTable (d : Draft) (k : Key) : Except Error Draft := do
  if d.declared.contains k || isClosed d.closed k then .error .malformed
  let table ← d.table.modify true .ok k
  return { d with table, declared := k :: d.declared, header := k }

/-- Opens a new table at the end of the array under a key. What was declared below the key belongs
to the table before it. -/
def openItem (d : Draft) (k : Key) : Except Error Draft := do
  if isClosed d.closed k then .error .malformed
  let table ← d.table.modify true (Table.extend (k.getLastD "")) k.dropLast
  let others (keys : List Key) := keys.filter (!k.isPrefixOf ·)
  return { d with table, declared := k :: others d.declared, closed := others d.closed
                  header := k }

/-- The keys of the tables that a dotted key leads through, seen from the top. -/
def through (d : Draft) (k : Key) : List Key :=
  (List.range (k.length - 1)).map fun n => d.header ++ k.take (n + 1)

/-- Sets the value of a key in the section of the last header. -/
def set (d : Draft) (k : Key) (item : Toml) : Except Error Draft := do
  let way := d.through k
  if way.any d.declared.contains then .error .malformed
  let inner := d.header ++ k.dropLast
  if isClosed d.closed inner then .error .malformed
  let table ← d.table.modify true (Table.add (k.getLastD "") item) inner
  let closed := if isComposite item then (d.header ++ k) :: d.closed else d.closed
  return { d with table, closed, pending := way ++ d.pending }

end Draft

/-- Reads the statement at the start of a line, if there is one. -/
def statement (d : Draft) (s : List Char) : Except Error (Draft × List Char) := do
  match s with
  | [] => return (d, [])
  | '[' :: '[' :: rest =>
    let (k, rest) ← key rest.length (skipIndent rest)
    let d ← d.endSection.openItem k
    match rest with
    | ']' :: ']' :: rest => return (d, rest)
    | _ => .error .malformed
  | '[' :: rest =>
    let (k, rest) ← key rest.length (skipIndent rest)
    let d ← d.endSection.openTable k
    match rest with
    | ']' :: rest => return (d, rest)
    | _ => .error .malformed
  | c :: rest =>
    if c = '\n' ∨ c = '#' then return (d, c :: rest)
    let (k, item, rest) ← entry (2 * s.length + 2) depthLimit s
    return (← d.set k item, rest)

/-- Reads at most so many lines. -/
def linesFrom : (bound : Nat) → Draft → List Char → Except Error Table
  | 0, d, _ => .ok d.table
  | bound + 1, d, s => do
    let (d, rest) ← statement d (skipIndent s)
    match ← skipComment (skipIndent rest) with
    | [] => return d.table
    | '\n' :: rest => linesFrom bound d rest
    | _ => .error .malformed

/-- Reads a document whose lines end with LF. -/
def parse (s : String) : Except Error Table :=
  linesFrom (s.toList.length + 1) .empty s.toList

end LintDebt.Toml
