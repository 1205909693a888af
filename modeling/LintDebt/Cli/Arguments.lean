import LintDebt.Text.Digit

/-! # Command line arguments

One command, and options before and after it. A long option may be cut short as long as only one
option begins that way, and takes its value from the next word or after an equals sign. Short
options may share a dash. After a lone `--` nothing is an option; it may stand right before the
command or right after it. After an equals sign it means that the option has no value at all. A
negative number and a word with a space in it are never options. -/

namespace LintDebt.Cli

inductive Flag where
  | help
  | config
  | baseDir
  | nextLine
  | json
  | verbose
  deriving DecidableEq, Repr

def Flag.takesValue : Flag → Bool
  | config | baseDir | json => true
  | help | nextLine | verbose => false

def longNames : List (String × Flag) :=
  [("--help", .help), ("--config", .config), ("--base-dir", .baseDir), ("--next-line", .nextLine),
    ("--json", .json), ("--verbose", .verbose)]

def shortNames : List (Char × Flag) := [('h', .help), ('v', .verbose)]

/-- What a word of the command line is. -/
inductive Word where
  | plain (s : String)
  | marker
  | long (f : Flag) (value : Option String)
  | short (f : Flag) (more : Option (List Char))
  | refused
  deriving DecidableEq, Repr

def splitEquals (s : List Char) : List Char × Option (List Char) :=
  match s.span (· ≠ '=') with
  | (name, _ :: value) => (name, some value)
  | (name, []) => (name, none)

/-- The digits may be those of any script, and a line end may follow them. -/
def isNegativeNumber (s : List Char) : Bool :=
  match if s.getLast? = some '\n' then s.dropLast else s with
  | '-' :: s =>
    match s.span Text.isDecimalDigit with
    | (ds, []) => !ds.isEmpty
    | (_, '.' :: ds) => !ds.isEmpty && ds.all Text.isDecimalDigit
    | _ => false
  | _ => false

/-- A word that begins like an option but names none. -/
def unnamed (s : List Char) : Word :=
  if isNegativeNumber s ∨ s.contains ' ' then .plain (String.ofList s) else .refused

def Word.parse (s : String) : Word :=
  match s.toList with
  | ['-', '-'] => .marker
  | '-' :: '-' :: rest =>
    let (name, value) := splitEquals ('-' :: '-' :: rest)
    let value := value.map String.ofList
    match longNames.lookup (String.ofList name) with
    | some f => .long f value
    | none =>
      match longNames.filter fun n => name.isPrefixOf n.1.toList with
      | [(_, f)] => .long f value
      | [] => unnamed ('-' :: '-' :: rest)
      | _ => .refused
  | '-' :: c :: rest =>
    match shortNames.lookup c with
    | some f =>
      match rest with
      | [] => .short f none
      | '=' :: more => .short f (some more)
      | more => .short f (some more)
    | none => unnamed ('-' :: c :: rest)
  | _ => .plain s

inductive Command where
  | compress
  | eliminate
  deriving DecidableEq, Repr

def Command.words : List (String × Command) := [("compress", .compress), ("eliminate", .eliminate)]

/-- A path is missing if its option was given without a value. -/
structure Arguments where
  config : Option String
  baseDir : Option String
  nextLine : Bool
  json : Option String
  verbose : Bool
  deriving DecidableEq, Repr

def Arguments.standard : Arguments := ⟨some "slim.toml", some ".", false, none, false⟩

def Arguments.setFlag (a : Arguments) : Flag → Arguments
  | .nextLine => { a with nextLine := true }
  | .verbose => { a with verbose := true }
  | _ => a

/-- Sets the value of an option; what stands after its equals sign may be no value. -/
def Arguments.setValue (a : Arguments) (given : String) (f : Flag) : Arguments :=
  let value := if given = "--" then none else some given
  match f with
  | .config => { a with config := value }
  | .baseDir => { a with baseDir := value }
  | .json => { a with json := value }
  | _ => a

inductive Request where
  | run (command : Command) (arguments : Arguments)
  | help
  | unusable
  deriving DecidableEq, Repr

/-- The flags that share a dash with the first one. -/
def shared? : List Char → Option (List Flag)
  | [] => some []
  | c :: rest => do
    let f ← shortNames.lookup c
    return f :: (← shared? rest)

/-- Reads words. `command` is the command if it has been read, and `fresh` holds right after it. -/
def request (command : Option Command) (fresh : Bool) (a : Arguments) : List Word → Request
  | [] => match command with
    | some c => .run c a
    | none => .unusable
  | .refused :: _ => .unusable
  | .plain s :: rest =>
    match command, Command.words.lookup s with
    | none, some c => request (some c) true a rest
    | _, _ => .unusable
  | .marker :: rest =>
    if command.isNone ∨ fresh then request command false a rest else .unusable
  | .short f more :: rest =>
    match more with
    | none => if f = .help then .help else request command false (a.setFlag f) rest
    | some [] => .unusable
    | some more =>
      match shared? more with
      | none => .unusable
      | some fs =>
        if (f :: fs).contains .help then .help
        else request command false ((f :: fs).foldl Arguments.setFlag a) rest
  | .long f value :: rest =>
    if f.takesValue then
      match value, rest with
      | some value, rest => request command false (a.setValue value f) rest
      | none, .plain value :: rest => request command false (a.setValue value f) rest
      | none, _ => .unusable
    else if value.isSome then .unusable
    else if f = .help then .help
    else request command false (a.setFlag f) rest

/-- After a marker every word is plain. -/
def classify : List String → List Word
  | [] => []
  | s :: rest =>
    match Word.parse s with
    | .marker => .marker :: rest.map .plain
    | w => w :: classify rest

/-- Reads a command line. A word that can be no option of ours spoils it wherever it stands. -/
def Request.parse (words : List String) : Request :=
  let words := classify words
  if words.contains .refused then .unusable else request none false .standard words

end LintDebt.Cli
