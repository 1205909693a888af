import LintDebt.Linter.Reports
import LintDebt.Proofs.IgnoreList
import LintDebt.Proofs.Violation

/-! # The reports in an output

An output has two streams, and its reports are read from the first one that holds an array. Every
item of that array is an object. One that names a source stands for one report, whose violations are
those of the item's warnings, in their order; the others are passed over. `Describes` says what an
item and its report have to do with each other. -/

namespace LintDebt.Reports

/-- The JSON value that a stream is, without the blanks around it. -/
def content (stream : String) : Except Json.ReadError Json :=
  Json.parse (String.ofList (Text.trim stream.toList))

/-- Holds for a stream that is an array. -/
def HoldsArray (stream : String) (items : List Json) : Prop := content stream = .ok (.array items)

/-- Holds for a stream that is no array, if its text can be read or is no JSON at all. -/
structure HoldsNone (stream : String) : Prop where
  other : ∀ items, ¬ HoldsArray stream items
  legible : ∀ e, content stream = .error e → ∃ syntaxError, e = .malformed syntaxError

/-- Holds for the array that reports are read from. -/
def Chosen (stdout stderr : String) (items : List Json) : Prop :=
  HoldsArray stdout items ∨ HoldsNone stdout ∧ HoldsArray stderr items

/-- Holds for an item that names a source. -/
def hasSource : Json → Bool
  | .object fields => (Json.Fields.get? fields "source").any Json.truthy
  | _ => false

/-- The elements of an item's warnings. Objects and strings have elements too, but none of those is a
violation, so that a report can come only of empty ones. -/
inductive Elements : Option Json → List Json → Prop where
  | absent : Elements none []
  | array (warnings : List Json) : Elements (some (.array warnings)) warnings
  | emptyObject : Elements (some (.object [])) []
  | emptyString : Elements (some (.string [])) []

/-- What an item with a source says, and its report. -/
inductive Describes : Json → Report → Prop where
  | mk (fields : Json.Fields) (r : Report) (warnings : List Json)
    (source : fields.get? "source" = some (.string r.source))
    (errored : r.errored = true ↔ ∃ value, fields.get? "errored" = some value ∧ value.truthy)
    (elements : Elements (fields.get? "warnings") warnings)
    (violations : List.Forall₂ (fun warning v => Violation.decode warning = .good v)
      warnings r.warnings)
    (ordered : ∀ v ∈ r.warnings, v.line ≤ v.endLine) : Describes (.object fields) r

variable {stream stdout stderr : String} {code : Int} {item : Json} {items : List Json}
  {fields : Json.Fields} {r : Report} {reports : List Report}

theorem content_of_trim_eq_nil (h : Text.trim stream.toList = []) :
    content stream = .error (.malformed ⟨.value, 1, 1, 0⟩) := by
  rw [content, h]
  rfl

theorem array?_eq (stream : String) : array? stream = match content stream with
    | .ok (.array items) => .ok (some items)
    | .ok _ => .ok none
    | .error (.malformed _) => .ok none
    | .error (.tooManyDigits n) => .error (.tooManyDigits n)
    | .error (.tooDeep kind) => .error (.tooDeep (some kind)) := by
  rw [array?]
  split
  · next h => rw [content_of_trim_eq_nil h]
  · rfl

theorem array?_eq_some : array? stream = .ok (some items) ↔ HoldsArray stream items := by
  rw [array?_eq, HoldsArray]
  split <;> simp_all

theorem array?_eq_none : array? stream = .ok none ↔ HoldsNone stream := by
  rw [array?_eq]
  constructor
  · intro h
    constructor
    · intro items hitems
      rw [show content stream = _ from hitems] at h
      cases h
    · rintro (syntaxError | n | kind) he
      · exact ⟨syntaxError, rfl⟩
      · rw [he] at h
        cases h
      · rw [he] at h
        cases h
  · rintro ⟨hother, hlegible⟩
    rcases hc : content stream with e | value
    · obtain ⟨syntaxError, rfl⟩ := hlegible e hc
      rfl
    · cases value with
      | array items => exact absurd hc (hother items)
      | _ => rfl

theorem holdsNone_empty : HoldsNone "" := array?_eq_none.mp rfl

theorem checked_eq_ok {α : Type} {shape : String} {x : Schema.Checked α} {a : α} :
    checked shape x = .ok a ↔ x = .good a := by
  cases x <;> simp [checked, Schema.Checked.toExcept]

theorem under_eq_good {α : Type} {key : Schema.Key} {x : Schema.Checked α} {a : α} :
    x.under key = .good a ↔ x = .good a := by
  cases x <;> simp [Schema.Checked.under]

theorem units_eq_good {value : Json} {units : Text.Units} :
    Schema.units value = .good units ↔ value = .string units := by
  cases value <;> simp [Schema.units, Schema.fail]

/-- No key and no character is a violation. -/
theorem decode_string_ne_good (units : Text.Units) (v : Violation) :
    Violation.decode (.string units) ≠ .good v := by
  nofun

theorem points_ne_nil (u : UInt16) (rest : Text.Units) : Text.points (u :: rest) ≠ [] := by
  cases rest with
  | nil => nofun
  | cons v rest =>
    rw [Text.points]
    split <;> nofun

/-- The items of a field, which has none if it is left out. -/
def itemsOfField : Option Json → Except Fault (List Json)
  | none => .ok []
  | some value => itemsOf value

/-- The violations that a field of warnings holds. -/
def violationsOf (warnings : Option Json) : Except Fault (List Violation) := do
  (← itemsOfField warnings).mapM fun item => checked "Violation" (Violation.decode item)

/-- The items that warnings are decoded from are their elements. -/
theorem violationsOf_eq_ok {warnings : Option Json} {violations : List Violation} :
    violationsOf warnings = .ok violations ↔ ∃ elements, Elements warnings elements ∧
      List.Forall₂ (fun item v => Violation.decode item = .good v) elements violations := by
  rw [violationsOf, bind_eq_ok]
  simp only [mapM_eq_ok, checked_eq_ok]
  constructor
  · rintro ⟨items, hitems, hall⟩
    cases warnings with
    | none => cases hitems; exact ⟨[], .absent, hall⟩
    | some value =>
    cases value with
    | array elements => cases hitems; exact ⟨items, .array items, hall⟩
    | object fields =>
      cases hitems
      cases fields with
      | nil => exact ⟨[], .emptyObject, hall⟩
      | cons f rest =>
        rcases hall with _ | ⟨hv, -⟩
        exact absurd hv (decode_string_ne_good _ _)
    | string units =>
      cases hitems
      cases units with
      | nil => exact ⟨[], .emptyString, hall⟩
      | cons u rest =>
        obtain ⟨p, ps, hpoints⟩ := List.exists_cons_of_ne_nil (points_ne_nil u rest)
        rw [hpoints] at hall
        rcases hall with _ | ⟨hv, -⟩
        exact absurd hv (decode_string_ne_good _ _)
    | _ => cases hitems
  · rintro ⟨elements, helements, hall⟩
    refine ⟨elements, ?_, hall⟩
    cases helements <;> rfl

/-- An item without a source is passed over, whatever else it says. -/
theorem ofItem_of_hasSource_eq_false (h : hasSource (.object fields) = false) :
    ofItem (.object fields) = .ok none := by
  have hsource : (Json.Fields.get? fields "source").filter Json.truthy = none := by
    cases hget : Json.Fields.get? fields "source" with
    | none => rfl
    | some source =>
      simp only [hasSource, hget, Option.any_some] at h
      simp [Option.filter, h]
  rw [ofItem, hsource]
  rfl

/-- The report of an item with a source has the parts of the item. -/
theorem ofItem_of_source {source : Json} (hget : Json.Fields.get? fields "source" = some source)
    (htruthy : source.truthy) :
    ofItem (.object fields) = do
      let warnings ← violationsOf (Json.Fields.get? fields "warnings")
      let source ← checked "FileReport" ((Schema.units source).under (.field "source"))
      return some ⟨source, ((Json.Fields.get? fields "errored").map Json.truthy).getD false,
        warnings⟩ := by
  have hsource : (Json.Fields.get? fields "source").filter Json.truthy = some source := by
    simp only [hget, Option.filter, htruthy, ↓reduceIte]
  rw [ofItem, hsource]
  cases hwarnings : Json.Fields.get? fields "warnings" with
  | none => rfl
  | some value => simp only [violationsOf, itemsOfField, bind_assoc]

/-- However its lines were spelled, no violation ends before it begins. -/
theorem line_le_endLine_of_decoded {violations : List Violation}
    (h : List.Forall₂ (fun item v => Violation.decode item = .good v) items violations) :
    ∀ v ∈ violations, v.line ≤ v.endLine := by
  induction h with
  | nil => exact nofun
  | cons hdecode _ ih =>
    intro v hv
    rcases List.mem_cons.mp hv with rfl | hv
    · exact Violation.made_iff.mp (Violation.made_of_decode hdecode)
    · exact ih v hv

theorem exists_source (h : hasSource (.object fields)) :
    ∃ source, Json.Fields.get? fields "source" = some source ∧ source.truthy := by
  unfold hasSource at h
  cases hget : Json.Fields.get? fields "source" with
  | none => simp [hget] at h
  | some source => exact ⟨source, rfl, by simpa [hget] using h⟩

theorem errored_iff {value : Option Json} :
    (value.map Json.truthy).getD false = true ↔ ∃ v, value = some v ∧ v.truthy := by
  cases value <;> simp

theorem Describes.exists_fields (h : Describes item r) : ∃ fields, item = .object fields := by
  cases h with
  | mk fields => exact ⟨fields, rfl⟩

/-- What an item describes is what is read from it. -/
theorem ofItem_eq_some_of_source {source : Json}
    (hget : Json.Fields.get? fields "source" = some source) (htruthy : source.truthy) :
    ofItem (.object fields) = .ok (some r) ↔ Describes (.object fields) r := by
  rw [ofItem_of_source hget htruthy]
  constructor
  · intro h
    obtain ⟨warnings, hwarnings, h⟩ := bind_eq_ok.mp h
    obtain ⟨units, hunits, h⟩ := bind_eq_ok.mp h
    obtain ⟨elements, helements, hall⟩ := violationsOf_eq_ok.mp hwarnings
    rw [checked_eq_ok, under_eq_good, units_eq_good] at hunits
    cases h
    apply Describes.mk fields _ elements (hget.trans (congrArg some hunits)) errored_iff helements
      hall
    exact line_le_endLine_of_decoded hall
  · intro h
    obtain ⟨_, _, elements, hsource, herrored, helements, hall, -⟩ := h
    obtain rfl : source = .string r.source := Option.some.inj (hget.symm.trans hsource)
    have hsame : ((Json.Fields.get? fields "errored").map Json.truthy).getD false = r.errored :=
      Bool.eq_iff_iff.mpr (errored_iff.trans herrored.symm)
    rw [violationsOf_eq_ok.mpr ⟨elements, helements, hall⟩, hsame]
    rfl

/-- An item stands for no report if it is an object without a source. -/
theorem ofItem_eq_none :
    ofItem item = .ok none ↔ (∃ fields, item = .object fields) ∧ hasSource item = false := by
  cases item with
  | object fields =>
    cases hsource : hasSource (.object fields) with
    | false => simp [ofItem_of_hasSource_eq_false hsource]
    | true =>
      obtain ⟨source, hget, htruthy⟩ := exists_source hsource
      rw [ofItem_of_source hget htruthy]
      constructor
      · intro h
        obtain ⟨warnings, -, h⟩ := bind_eq_ok.mp h
        obtain ⟨units, -, h⟩ := bind_eq_ok.mp h
        cases h
      · intro h
        cases h.2
  | _ => simp [ofItem]

/-- An item stands for a report if it has a source and says what is in the report. -/
theorem ofItem_eq_some : ofItem item = .ok (some r) ↔ hasSource item = true ∧ Describes item r := by
  cases item with
  | object fields =>
    cases hsource : hasSource (.object fields) with
    | false => simp [ofItem_of_hasSource_eq_false hsource]
    | true =>
      obtain ⟨source, hget, htruthy⟩ := exists_source hsource
      simp [ofItem_eq_some_of_source hget htruthy]
  | _ => simp [ofItem, hasSource]

/-- The items of an array are read one by one, and what is passed over leaves no trace. -/
theorem exists_mapM_ofItem : (∃ found, items.mapM ofItem = .ok found ∧ found.filterMap id = reports) ↔
    (∀ item ∈ items, ∃ fields, item = .object fields) ∧
      List.Forall₂ Describes (items.filter hasSource) reports := by
  simp only [mapM_eq_ok]
  induction items generalizing reports with
  | nil => simp [eq_comm]
  | cons item rest ih =>
    rw [List.forall_mem_cons]
    constructor
    · rintro ⟨_ | ⟨first, found⟩, hall, rfl⟩
      · cases hall
      rcases hall with _ | ⟨hread, hfound⟩
      obtain ⟨hobjects, hreports⟩ := ih.mp ⟨found, hfound, rfl⟩
      cases first with
      | none =>
        obtain ⟨hobject, hsource⟩ := ofItem_eq_none.mp hread
        refine ⟨⟨hobject, hobjects⟩, ?_⟩
        rw [List.filter_cons_of_neg (Bool.eq_false_iff.mp hsource)]
        exact hreports
      | some r =>
        obtain ⟨hsource, hdescribes⟩ := ofItem_eq_some.mp hread
        refine ⟨⟨hdescribes.exists_fields, hobjects⟩, ?_⟩
        rw [List.filter_cons_of_pos hsource]
        exact .cons hdescribes hreports
    · rintro ⟨⟨hobject, hobjects⟩, hreports⟩
      cases hsource : hasSource item with
      | false =>
        rw [List.filter_cons_of_neg (Bool.eq_false_iff.mp hsource)] at hreports
        obtain ⟨found, hfound, rfl⟩ := ih.mpr ⟨hobjects, hreports⟩
        exact ⟨none :: found, .cons (ofItem_eq_none.mpr ⟨hobject, hsource⟩) hfound, rfl⟩
      | true =>
        rw [List.filter_cons_of_pos hsource] at hreports
        rcases hreports with _ | ⟨hdescribes, hreports⟩
        obtain ⟨found, hfound, rfl⟩ := ih.mpr ⟨hobjects, hreports⟩
        exact ⟨some _ :: found, .cons (ofItem_eq_some.mpr ⟨hsource, hdescribes⟩) hfound, rfl⟩

/-- The reports that the items of an array stand for. -/
def ofItems (items : List Json) : Except Failure (List Report) := do
  return (← liftFault (items.mapM ofItem)).filterMap id

theorem ofItems_eq_ok : ofItems items = .ok reports ↔
    (∀ item ∈ items, ∃ fields, item = .object fields) ∧
      List.Forall₂ Describes (items.filter hasSource) reports := by
  rw [ofItems, bind_eq_ok, ← exists_mapM_ofItem]
  simp only [liftFault_eq_ok, pure, Except.pure, Except.ok.injEq]

/-- A stream that holds an array decides alone. -/
theorem read_of_holdsArray (h : HoldsArray stdout items) :
    read stdout stderr code = ofItems items := by
  rw [read, array?_eq_some.mpr h]
  rfl

/-- A stream without an array is as good as an empty one. -/
theorem read_of_holdsNone (h : HoldsNone stdout) :
    read stdout stderr code = read "" stderr code := by
  rw [read, read, array?_eq_none.mpr h, array?_eq_none.mpr holdsNone_empty]

theorem read_empty_of_holdsArray (h : HoldsArray stderr items) :
    read "" stderr code = ofItems items := by
  rw [read, array?_eq_none.mpr holdsNone_empty, array?_eq_some.mpr h]
  rfl

/-- Two streams without an array are an error of the linter. -/
theorem read_empty_of_holdsNone (h : HoldsNone stderr) (code : Int) :
    ∃ detail, read "" stderr code = .error (.tool (.noReport detail)) := by
  rw [read, array?_eq_none.mpr holdsNone_empty, array?_eq_none.mpr h]
  exact ⟨_, rfl⟩

theorem ofItems_of_chosen (h : Chosen stdout stderr items) :
    read stdout stderr code = ofItems items := by
  rcases h with h | ⟨hnone, h⟩
  · exact read_of_holdsArray h
  · rw [read_of_holdsNone hnone, read_empty_of_holdsArray h]

/-- Reports are read from the array of a stream only. -/
theorem exists_chosen (h : read stdout stderr code = .ok reports) :
    ∃ items, Chosen stdout stderr items := by
  rw [read] at h
  obtain ⟨first, hfirst, h⟩ := bind_eq_ok.mp h
  rw [liftFault_eq_ok] at hfirst
  cases first with
  | some items => exact ⟨items, Or.inl (array?_eq_some.mp hfirst)⟩
  | none =>
    obtain ⟨second, hsecond, h⟩ := bind_eq_ok.mp h
    rw [liftFault_eq_ok] at hsecond
    cases second with
    | some items =>
      exact ⟨items, Or.inr ⟨array?_eq_none.mp hfirst, array?_eq_some.mp hsecond⟩⟩
    | none => cases h

/-- One stream is read, and every item of its array that names a source is in the reports. If the
first stream holds an array, nothing else matters; if it holds none, it may as well be empty. -/
theorem read_one_stream (stdout stderr : String) (code : Int) :
    (∀ items, HoldsArray stdout items → ∀ stderr' code',
      read stdout stderr' code' = read stdout stderr code) ∧
    (HoldsNone stdout → read stdout stderr code = read "" stderr code ∧
      (HoldsNone stderr →
        ∃ e, read "" stderr code = .error (.tool e) ∧ e.kind = .externalTool)) ∧
    ∀ reports, read stdout stderr code = .ok reports ↔
      ∃ items, Chosen stdout stderr items ∧ (∀ item ∈ items, ∃ fields, item = .object fields) ∧
        List.Forall₂ Describes (items.filter hasSource) reports := by
  refine ⟨?_, ?_, ?_⟩
  · intro items h stderr' code'
    rw [read_of_holdsArray h, read_of_holdsArray h]
  · intro h
    refine ⟨read_of_holdsNone h, ?_⟩
    intro hstderr
    obtain ⟨detail, hdetail⟩ := read_empty_of_holdsNone hstderr code
    exact ⟨_, hdetail, rfl⟩
  · intro reports
    constructor
    · intro h
      obtain ⟨items, hitems⟩ := exists_chosen h
      rw [ofItems_of_chosen hitems, ofItems_eq_ok] at h
      exact ⟨items, hitems, h⟩
    · rintro ⟨items, hitems, h⟩
      rw [ofItems_of_chosen hitems, ofItems_eq_ok]
      exact h

/-- An item whose violation ends before it begins, and an item without a source. -/
def Sample.output : String :=
  "[\x7b\"source\":\"a.css\",\"errored\":1,\"warnings\":[\x7b\"line\":\"3\",\"endLine\":1\x7d]\x7d," ++
    "\x7b\"errored\":1\x7d]"

def Sample.described : List Report :=
  [⟨Text.unitsOf "a.css", true, [⟨.error, 3, 3, [], []⟩]⟩]

theorem read_one_stream_after_noise :
    (HoldsNone "Done" ∧ HoldsNone "" ∧ read "Done" Sample.output 2 = read "" Sample.output 2 ∧
      ∃ e, read "" "" 1 = .error (.tool e) ∧ e.kind = .externalTool) ∧
    (∃ items, HoldsArray Sample.output items ∧
      read Sample.output "Done" 2 = read Sample.output "" 0 ∧
      (∀ item ∈ items, ∃ fields, item = .object fields) ∧
      List.Forall₂ Describes (items.filter hasSource) Sample.described) := by
  have hnoise : HoldsNone "Done" := array?_eq_none.mp (by rfl)
  have hread : read Sample.output "" 0 = .ok Sample.described := by decide +kernel
  obtain ⟨hignored, -, hreports⟩ := read_one_stream Sample.output "" 0
  obtain ⟨items, hchosen | ⟨-, hempty⟩, hobjects, hdescribes⟩ := (hreports _).mp hread
  · exact ⟨⟨hnoise, holdsNone_empty, ((read_one_stream "Done" Sample.output 2).2.1 hnoise).1,
      ((read_one_stream "" "" 1).2.1 holdsNone_empty).2 holdsNone_empty⟩,
      items, hchosen, hignored items hchosen "Done" 2, hobjects, hdescribes⟩
  · exact absurd hempty (holdsNone_empty.other items)

end LintDebt.Reports
