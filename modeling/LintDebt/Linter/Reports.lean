import LintDebt.ToolError
import LintDebt.Violation
import LintDebt.Text.Blank

/-! # The output of the linter

The linter prints its reports as a JSON array, on one of two streams. The first stream that holds an
array is read and the other one ignored; if neither does, the second is taken for an error text.
Array items without a source are left out. -/

namespace LintDebt.Reports

/-- The array that a stream holds. A stream that is not JSON, or another value, holds none. -/
def array? (stream : String) : Except Fault (Option (List Json)) :=
  match Text.trim stream.toList with
  | [] => .ok none
  | text =>
    match Json.parse (String.ofList text) with
    | .ok (.array items) => .ok (some items)
    | .ok _ => .ok none
    | .error (.malformed _) => .ok none
    | .error (.tooManyDigits n) => .error (.tooManyDigits n)
    | .error (.tooDeep kind) => .error (.tooDeep (some kind))

/-- The items of a value that can be gone through. The keys of an object and the characters of a
string count as items. -/
def itemsOf : Json → Except Fault (List Json)
  | .array items => .ok items
  | .object fields => .ok (fields.map fun f => .string f.1)
  | .string units => .ok ((Text.points units).map fun p => .string p.units)
  | value => .error (.noItems value.kind)

def checked (shape : String) (x : Schema.Checked α) : Except Fault α :=
  (x.toExcept shape).mapError .invalid

/-- The report that an item stands for. Whether the file fails is taken from any value: the field
counts when it is present and not empty. -/
def ofItem (item : Json) : Except Fault (Option Report) := do
  match item with
  | .object fields =>
    match (Json.Fields.get? fields "source").filter Json.truthy with
    | none => return none
    | some source =>
      let errored := ((Json.Fields.get? fields "errored").map Json.truthy).getD false
      let items ← match Json.Fields.get? fields "warnings" with
        | none => .ok []
        | some value => itemsOf value
      let warnings ← items.mapM fun item => checked "Violation" (Violation.decode item)
      let source ← checked "FileReport" ((Schema.units source).under (.field "source"))
      return some ⟨source, errored, warnings⟩
  | item => .error (.noFields item.kind)

/-- The reports in what the linter printed. -/
def read (stdout stderr : String) (code : Int) : Except Failure (List Report) := do
  let first ← liftFault (array? stdout)
  let found ← match first with
    | some items => .ok (some items)
    | none => liftFault (array? stderr)
  match found with
  | some items => return (← liftFault (items.mapM ofItem)).filterMap id
  | none =>
    let said := Text.trim stderr.toList
    let detail := if said.isEmpty then s!"no JSON report (exit code {code})" else String.ofList said
    .error (.tool (.noReport detail))

end LintDebt.Reports
