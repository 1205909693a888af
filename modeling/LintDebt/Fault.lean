import LintDebt.FileTree.Canonical
import LintDebt.Json.Reader
import LintDebt.Schema
import LintDebt.Text.Utf8

/-! # Faults

Everything that can go wrong below the level of the tool's own errors: what the system refuses, what
a reader or a check turns down, and what a linter raises. `message` is the one place for wording. -/

namespace LintDebt

/-- Why a message template does not fit its arguments. -/
inductive TemplateError where
  | tooFewArguments
  | tooManyArguments
  | noMapping
  | missingKey (name : String)
  | incompleteKey
  | incomplete
  | widthTooBig
  | precisionTooBig
  | asteriskNeedsInteger
  | asteriskTooLarge (isWidth : Bool)
  | numberNeeded (letter : Char) (given : Json.Kind)
  | integerNeeded (letter : Char) (given : Json.Kind)
  | realNeeded (given : Json.Kind)
  | noInteger (infinite : Bool)
  | tooLarge
  | characterNeeded
  | noCharacter
  | unsupported (letter : Char) (index : Nat)
  deriving DecidableEq, Repr

/-- Why a number of seconds is no time of a log record. -/
inductive TimeError where
  | beyondClock
  | beyondCalendar
  | beyondText
  deriving DecidableEq, Repr

inductive Fault where
  | os (e : OsError)
  | undecodable (e : Utf8.Error)
  | unencodable (run : Text.LoneRun)
  | noPath
  | linkLoop (path : String)
  | nameless (path : Path)
  | tooManyDigits (digits : Nat)
  | tooDeep (kind : Option Json.Kind)
  | unknownStyle (shown : String)
  | missingKey (key : String)
  | indexOutOfRange
  | noFields (given : Json.Kind)
  | noItems (given : Json.Kind)
  | invalid (e : Schema.Mismatch)
  | template (e : TemplateError)
  | time (e : TimeError)
  | raised (kind : String) (text : String)
  deriving DecidableEq, Repr

def Utf8.Reason.text : Utf8.Reason → String
  | invalidStart => "invalid start byte"
  | invalidContinuation => "invalid continuation byte"
  | unexpectedEnd => "unexpected end of data"

/-- One octet is shown itself, a longer run by its bounds. -/
def Utf8.Error.message (e : Utf8.Error) : String :=
  if e.length = 1 then
    let octet := String.ofList (Text.hexDigits e.first.toNat 2)
    s!"'utf-8' codec can't decode byte 0x{octet} in position {e.position}: {e.reason.text}"
  else
    let last := e.position + e.length - 1
    s!"'utf-8' codec can't decode bytes in position {e.position}-{last}: {e.reason.text}"

/-- One surrogate is shown itself, a longer run by its bounds. -/
def unencodableText (run : Text.LoneRun) : String :=
  let what :=
    if run.length = 1 then
      let shown := String.ofList (Text.numberEscape run.first.toNat)
      s!"character '{shown}' in position {run.position}"
    else s!"characters in position {run.position}-{run.position + run.length - 1}"
  s!"'utf-8' codec can't encode {what}: surrogates not allowed"

def TemplateError.message : TemplateError → String
  | tooFewArguments => "not enough arguments for format string"
  | tooManyArguments => "not all arguments converted during string formatting"
  | noMapping => "format requires a mapping"
  | missingKey name => Text.quoted name
  | incompleteKey => "incomplete format key"
  | incomplete => "incomplete format"
  | widthTooBig => "width too big"
  | precisionTooBig => "precision too big"
  | asteriskNeedsInteger => "* wants int"
  | asteriskTooLarge isWidth =>
    "Python int too large to convert to C " ++ if isWidth then "ssize_t" else "int"
  | numberNeeded letter given =>
    s!"%{letter} format: a real number is required, not {given.name}"
  | integerNeeded letter given => s!"%{letter} format: an integer is required, not {given.name}"
  | realNeeded given => s!"must be real number, not {given.name}"
  | noInteger true => "cannot convert float infinity to integer"
  | noInteger false => "cannot convert float NaN to integer"
  | tooLarge => "int too large to convert to float"
  | characterNeeded => "%c requires int or char"
  | noCharacter => "%c arg not in range(0x110000)"
  | unsupported letter index =>
    let code := String.ofList (Nat.toDigits 16 letter.toNat)
    let shown := if 31 ≤ letter.toNat ∧ letter.toNat ≤ 126 then letter else '?'
    s!"unsupported format character '{shown}' (0x{code}) at index {index}"

def TimeError.message : TimeError → String
  | beyondClock => "timestamp out of range for platform time_t"
  | beyondCalendar => "[Errno 75] Value too large for defined data type"
  | beyondText => "signed integer is greater than maximum"

/-- The words for a container of which too many lie in each other. -/
def depthText : Option Json.Kind → String
  | some .array => " while decoding a JSON array from a unicode string"
  | some .object => " while decoding a JSON object from a unicode string"
  | _ => ""

namespace Fault

def message : Fault → String
  | os e => e.message
  | undecodable e => e.message
  | unencodable run => unencodableText run
  | noPath => "expected str, bytes or os.PathLike object, not list"
  | linkLoop path => s!"Symlink loop from {Text.quoted path}"
  | nameless path => s!"PosixPath({Text.quoted path.text}) has an empty name"
  | tooManyDigits digits =>
    s!"Exceeds the limit ({Json.digitLimit} digits) for integer string conversion: " ++
      s!"value has {digits} digits; use sys.set_int_max_str_digits() to increase the limit"
  | tooDeep kind => "maximum recursion depth exceeded" ++ depthText kind
  | unknownStyle shown => s!"{shown} is not a valid SuppressionStyle"
  | missingKey key => Text.quoted key
  | indexOutOfRange => "list index out of range"
  | noFields given => s!"'{given.name}' object has no attribute 'get'"
  | noItems given => s!"'{given.name}' object is not iterable"
  | invalid e => e.message
  | template e => e.message
  | time e => e.message
  | raised _ text => text

def ofResolve : ResolveError → Fault
  | .nullCharacter => .os .nullCharacter
  | .loop path => .linkLoop path
  | .tooDeep => .tooDeep none

end Fault
end LintDebt
