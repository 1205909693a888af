import LintDebt.Proofs.Json.Readable

/-! # Values that are written and read back

A value without floating point numbers that fits is read back from what is written of it, and what
stands behind is left: each part is written so that its reader stops where the next part begins. The
depth of the recursion is never more than the number of characters written, and the levels are those
of the value. -/

namespace LintDebt.Json

open Text

mutual

/-- Holds for a value in which there is no floating point number. -/
def floatless : Json → Bool
  | null => true
  | bool _ => true
  | int _ => true
  | float _ => false
  | string _ => true
  | array items => floatlessItems items
  | object fields => floatlessFields fields

def floatlessItems : List Json → Bool
  | [] => true
  | item :: items => floatless item && floatlessItems items

def floatlessFields : List (Units × Json) → Bool
  | [] => true
  | (_, value) :: fields => floatless value && floatlessFields fields

end

variable {v item : Json} {items : List Json} {fields : Fields} {key : Units} {room depth d : Nat}
  {s rest : List Char} {c : Char}

theorem floatless_array : floatless (.array items) = true ↔ ∀ v ∈ items, floatless v = true := by
  rw [floatless]
  induction items with
  | nil => simp [floatlessItems]
  | cons item items ih => simp [floatlessItems, ih]

theorem floatless_object :
    floatless (.object fields) = true ↔ ∀ f ∈ fields, floatless f.2 = true := by
  rw [floatless]
  induction fields with
  | nil => simp [floatlessFields]
  | cons f fields ih => simp [floatlessFields, ih]

/-! ### What is written -/

/-- The layout has no line starts. -/
theorem writeAt_array (d : Nat) (item : Json) (items : List Json) :
    writeAt compact d (.array (item :: items)) =
      '[' :: (writeAt compact (d + 1) item ++ (writeItems compact (d + 1) items ++ [']'])) := by
  simp [writeAt, compact]

theorem writeItems_cons (d : Nat) (item : Json) (items : List Json) :
    writeItems compact d (item :: items) =
      ',' :: ' ' :: (writeAt compact d item ++ writeItems compact d items) := by
  simp [writeItems, compact]

/-- A field without the comma before it. -/
def fieldText (d : Nat) (f : Units × Json) : List Char :=
  stringAscii f.1 ++ ':' :: ' ' :: writeAt compact d f.2

theorem writeAt_object (d : Nat) (f : Units × Json) (fields : Fields) :
    writeAt compact d (.object (f :: fields)) =
      '{' :: (fieldText (d + 1) f ++ (writeFields compact (d + 1) fields ++ ['}'])) := by
  simp [writeAt, compact, fieldText]

theorem writeFields_cons (d : Nat) (f : Units × Json) (fields : Fields) :
    writeFields compact d (f :: fields) =
      ',' :: ' ' :: (fieldText d f ++ writeFields compact d fields) := by
  simp [writeFields, compact, fieldText]

/-- The first character of a value is neither white space nor the end of an array. -/
theorem exists_writeAt (d : Nat) (h : floatless v = true) : ∃ c tail,
    writeAt compact d v = c :: tail ∧ isWhite c = false ∧ c ≠ ']' := by
  have hdigit : ∀ c : Char, c.isDigit = true → isWhite c = false ∧ c ≠ ']' := by
    intro c hc
    refine ⟨?_, by rintro rfl; cases hc⟩
    rw [isWhite, Bool.eq_false_iff]
    intro hwhite
    simp only [Bool.or_eq_true, decide_eq_true_eq] at hwhite
    rcases hwhite with ((rfl | rfl) | rfl) | rfl <;> cases hc
  cases v with
  | null => exact ⟨'n', _, rfl, by decide, by decide⟩
  | bool b => cases b <;> exact ⟨_, _, rfl, by decide, by decide⟩
  | int n =>
    rw [writeAt]
    obtain ⟨c, ds, hc, hds | hds⟩ := intText_cases n
    · exact ⟨c, ds, hds, hdigit c hc⟩
    · exact ⟨'-', _, hds, by decide, by decide⟩
  | float x => cases h
  | string us => exact ⟨'"', _, rfl, by decide, by decide⟩
  | array items =>
    cases items with
    | nil => exact ⟨'[', _, rfl, by decide, by decide⟩
    | cons item items => exact ⟨'[', _, writeAt_array .., by decide, by decide⟩
  | object fields =>
    cases fields with
    | nil => exact ⟨'{', _, rfl, by decide, by decide⟩
    | cons f fields => exact ⟨'{', _, writeAt_object .., by decide, by decide⟩

/-! ### Steps of the reader -/

theorem skipWhite_of_not_white (h : isWhite c = false) (s : List Char) :
    skipWhite (c :: s) = c :: s :=
  List.dropWhile_cons_of_neg (by simp [h])

theorem skipWhite_space (s : List Char) : skipWhite (' ' :: s) = skipWhite s := rfl

theorem value?_scalar (h : ∀ c ∈ s.head?, c ≠ '"' ∧ c ≠ '[' ∧ c ≠ '\x7b') :
    value? (depth + 1) room s = scalar? s := by
  rw [value?]
  · rintro rest rfl
    exact (h _ rfl).1 rfl
  · rintro rest rfl
    exact absurd rfl (h _ rfl).2.1
  · rintro rest _ rfl
    exact absurd rfl (h _ rfl).2.1
  · rintro rest rfl
    exact absurd rfl (h _ rfl).2.2
  · rintro rest _ rfl
    exact absurd rfl (h _ rfl).2.2

theorem value?_string (us : Units) (rest : List Char) :
    value? (depth + 1) room (stringAscii us ++ rest) = .ok (.string us, rest) := by
  rw [stringAscii, List.append_assoc, List.cons_append, value?, List.singleton_append,
    string?_flatMap_unitAscii]
  rfl

theorem value?_array (hwhite : isWhite c = false) (hc : c ≠ ']')
    (h : items? depth room (c :: s) = .ok (items, rest)) :
    value? (depth + 1) (room + 1) ('[' :: c :: s) = .ok (.array items, rest) := by
  rw [value?, skipWhite_of_not_white hwhite]
  split
  · next heq => exact absurd (List.cons.inj heq).1 hc
  · rw [h]
    rfl

theorem value?_object (h : fields? depth room ('"' :: s) = .ok (fields, rest))
    (hkeys : (fields.map Prod.fst).Nodup) :
    value? (depth + 1) (room + 1) ('\x7b' :: '"' :: s) = .ok (.object fields, rest) := by
  rw [value?, skipWhite_of_not_white (by decide)]
  split
  · next heq => cases heq
  · rw [h]
    simp only [Except.map, Fields.ofListed_of_nodup hkeys]

theorem items?_last (h : value? depth room s = .ok (item, ']' :: rest)) :
    items? (depth + 1) room s = .ok ([item], rest) := by
  rw [items?, h]
  rfl

theorem items?_more {more : List Char} (h : value? depth room s = .ok (item, ',' :: ' ' :: c :: more))
    (hwhite : isWhite c = false) (hmore : items? depth room (c :: more) = .ok (items, rest)) :
    items? (depth + 1) room s = .ok (item :: items, rest) := by
  rw [items?, h]
  simp only [bind, Except.bind, skipWhite_of_not_white (show isWhite ',' = false by decide),
    skipWhite_space, skipWhite_of_not_white hwhite, hmore]

theorem fields?_last (hwhite : isWhite c = false)
    (h : value? depth room (c :: s) = .ok (v, '\x7d' :: rest)) :
    fields? (depth + 1) room (stringAscii key ++ ':' :: ' ' :: c :: s) = .ok ([(key, v)], rest) := by
  rw [stringAscii, List.append_assoc, List.cons_append, fields?]
  simp only [bind, Except.bind, List.singleton_append, string?_flatMap_unitAscii,
    skipWhite_of_not_white (show isWhite ':' = false by decide), skipWhite_space,
    skipWhite_of_not_white hwhite, h, skipWhite_of_not_white (show isWhite '\x7d' = false by decide)]

theorem fields?_more {more : List Char} (hwhite : isWhite c = false)
    (h : value? depth room (c :: s) = .ok (v, ',' :: ' ' :: '"' :: more))
    (hmore : fields? depth room ('"' :: more) = .ok (fields, rest)) :
    fields? (depth + 1) room (stringAscii key ++ ':' :: ' ' :: c :: s) =
      .ok ((key, v) :: fields, rest) := by
  rw [stringAscii, List.append_assoc, List.cons_append, fields?]
  simp only [bind, Except.bind, List.singleton_append, string?_flatMap_unitAscii,
    skipWhite_of_not_white (show isWhite ':' = false by decide), skipWhite_space,
    skipWhite_of_not_white hwhite, h, skipWhite_of_not_white (show isWhite ',' = false by decide),
    skipWhite_of_not_white (show isWhite '"' = false by decide), hmore]

theorem word?_digit (hc : c.isDigit = true) (s : List Char) : word? (c :: s) = none := by
  rw [word?]
  all_goals
    rintro rest h
    cases h
    cases hc

theorem word?_minus (hc : c.isDigit = true) (s : List Char) : word? ('-' :: c :: s) = none := by
  rw [word?]
  all_goals
    rintro rest h
    cases h
  cases hc

/-! ### What is read back -/

/-- Holds for a value that is read back from what is written of it. -/
def ReadBack (room : Nat) (v : Json) : Prop :=
  ∀ (depth d : Nat) (rest : List Char), (writeAt compact d v).length ≤ depth → Follows rest →
    value? depth room (writeAt compact d v ++ rest) = .ok (v, rest)

theorem follows_cons (h : c = ',' ∨ c = ']' ∨ c = '\x7d') (s : List Char) : Follows (c :: s) := by
  intro x hx
  cases hx
  exact h

/-- Something is written of every value, so that the recursion has a step left. -/
theorem readBack_of_succ (hfloat : floatless v = true)
    (h : ∀ (depth d : Nat) (rest : List Char), (writeAt compact d v).length ≤ depth + 1 →
      Follows rest → value? (depth + 1) room (writeAt compact d v ++ rest) = .ok (v, rest)) :
    ReadBack room v := by
  intro depth d rest hdepth hrest
  cases depth with
  | zero =>
    obtain ⟨c, tail, htext, -⟩ := exists_writeAt d hfloat
    rw [htext] at hdepth
    simp at hdepth
  | succ depth => exact h depth d rest hdepth hrest

theorem readBack_int {n : Int} (hn : n.natAbs < 10 ^ digitLimit) : ReadBack room (.int n) := by
  apply readBack_of_succ rfl
  intro depth d rest hdepth hrest
  have hdigit : ∀ c : Char, c.isDigit = true → c ≠ '"' ∧ c ≠ '[' ∧ c ≠ '\x7b' := by
    intro c hc
    refine ⟨?_, ?_, ?_⟩ <;> rintro rfl <;> cases hc
  have hnumber : scalar? (intText n ++ rest) = .ok (.int n, rest) := by
    have hword : word? (intText n ++ rest) = none := by
      obtain ⟨c, ds, hc, hds | hds⟩ := intText_cases n
      · rw [hds]
        exact word?_digit hc _
      · rw [hds]
        exact word?_minus hc _
    rw [scalar?, hword, number?_intText hn hrest]
    rfl
  rw [writeAt, ← hnumber]
  apply value?_scalar
  intro c hc
  obtain ⟨c', ds, hdigit', hds | hds⟩ := intText_cases n
  · rw [hds] at hc
    cases hc
    exact hdigit c hdigit'
  · rw [hds] at hc
    cases hc
    decide

/-- The items of an array are read back one after the other. -/
theorem items?_write (hfloat : ∀ v ∈ item :: items, floatless v = true)
    (h : ∀ v ∈ item :: items, ReadBack room v) (depth d : Nat) (rest : List Char)
    (hdepth : (writeAt compact d item ++ writeItems compact d items).length < depth) :
    items? depth room (writeAt compact d item ++ (writeItems compact d items ++ ']' :: rest)) =
      .ok (item :: items, rest) := by
  induction items generalizing item depth with
  | nil =>
    obtain ⟨depth, rfl⟩ := Nat.exists_eq_succ_of_ne_zero (Nat.ne_zero_of_lt hdepth)
    apply items?_last
    rw [writeItems, List.append_nil] at hdepth
    exact h item List.mem_cons_self depth d _ (Nat.le_of_lt_succ hdepth) (follows_cons (by simp) _)
  | cons next items ih =>
    obtain ⟨depth, rfl⟩ := Nat.exists_eq_succ_of_ne_zero (Nat.ne_zero_of_lt hdepth)
    obtain ⟨c, tail, htext, hwhite, -⟩ := exists_writeAt d (hfloat next (by simp))
    rw [writeItems_cons, List.length_append, List.length_cons, List.length_cons] at hdepth
    have hrest := ih (fun v hv => hfloat v (List.mem_cons_of_mem _ hv))
      (fun v hv => h v (List.mem_cons_of_mem _ hv)) depth (by omega)
    have hitem := h item List.mem_cons_self depth d
      (',' :: ' ' :: (writeAt compact d next ++ (writeItems compact d items ++ ']' :: rest)))
      (by omega) (follows_cons (by simp) _)
    rw [htext, List.cons_append] at hrest hitem
    rw [writeItems_cons, htext]
    simp only [List.cons_append, List.append_assoc]
    exact items?_more hitem hwhite hrest

theorem exists_fieldText (d : Nat) (f : Units × Json) : ∃ tail, fieldText d f = '"' :: tail :=
  ⟨_, rfl⟩

/-- The fields of an object are read back one after the other. -/
theorem fields?_write {f : Units × Json} (hfloat : ∀ g ∈ f :: fields, floatless g.2 = true)
    (h : ∀ g ∈ f :: fields, ReadBack room g.2) (depth d : Nat) (rest : List Char)
    (hdepth : (fieldText d f ++ writeFields compact d fields).length < depth) :
    fields? depth room (fieldText d f ++ (writeFields compact d fields ++ '\x7d' :: rest)) =
      .ok (f :: fields, rest) := by
  induction fields generalizing f depth with
  | nil =>
    obtain ⟨depth, rfl⟩ := Nat.exists_eq_succ_of_ne_zero (Nat.ne_zero_of_lt hdepth)
    obtain ⟨c, tail, htext, hwhite, -⟩ := exists_writeAt d (hfloat f List.mem_cons_self)
    rw [writeFields, List.append_nil, fieldText, List.length_append, List.length_cons,
      List.length_cons] at hdepth
    have hvalue := h f List.mem_cons_self depth d ('\x7d' :: rest) (by omega) (follows_cons (by simp) _)
    rw [htext, List.cons_append] at hvalue
    rw [writeFields, fieldText, htext]
    simp only [List.nil_append, List.append_assoc, List.cons_append]
    exact fields?_last hwhite hvalue
  | cons g fields ih =>
    obtain ⟨depth, rfl⟩ := Nat.exists_eq_succ_of_ne_zero (Nat.ne_zero_of_lt hdepth)
    obtain ⟨c, tail, htext, hwhite, -⟩ := exists_writeAt d (hfloat f List.mem_cons_self)
    obtain ⟨next, hnext⟩ := exists_fieldText d g
    rw [writeFields_cons, fieldText, List.length_append, List.length_append, List.length_cons,
      List.length_cons, List.length_cons, List.length_cons] at hdepth
    have hrest := ih (fun v hv => hfloat v (List.mem_cons_of_mem _ hv))
      (fun v hv => h v (List.mem_cons_of_mem _ hv)) depth (by omega)
    have hvalue := h f List.mem_cons_self depth d
      (',' :: ' ' :: (fieldText d g ++ (writeFields compact d fields ++ '\x7d' :: rest)))
      (by omega) (follows_cons (by simp) _)
    rw [hnext, List.cons_append] at hrest hvalue
    rw [htext, List.cons_append] at hvalue
    rw [writeFields_cons, hnext, fieldText, htext]
    simp only [List.append_assoc, List.cons_append]
    exact fields?_more hwhite hvalue hrest

/-- A value that fits is read back. -/
theorem readBack_of_fits (h : Fits room v) (hfloat : floatless v = true) : ReadBack room v := by
  induction h with
  | null =>
    apply readBack_of_succ hfloat
    intro depth d rest _ _
    exact value?_scalar (by simp [writeAt])
  | bool b =>
    apply readBack_of_succ hfloat
    intro depth d rest _ _
    cases b <;> exact value?_scalar (by simp [writeAt])
  | int hn => exact readBack_int hn
  | float x => cases hfloat
  | string us =>
    apply readBack_of_succ hfloat
    intro depth d rest _ _
    exact value?_string us rest
  | @array room items _ ih =>
    rw [floatless_array] at hfloat
    apply readBack_of_succ (floatless_array.mpr hfloat)
    intro depth d rest hdepth _
    cases items with
    | nil =>
      rw [writeAt, List.cons_append, value?]
      rfl
    | cons item items =>
      rw [writeAt_array] at hdepth ⊢
      obtain ⟨c, tail, htext, hwhite, hc⟩ := exists_writeAt (d + 1) (hfloat item List.mem_cons_self)
      have hitems := items?_write hfloat (fun v hv => ih v hv (hfloat v hv)) depth (d + 1) rest
        (by simp at hdepth ⊢; omega)
      rw [htext] at hitems ⊢
      simp only [List.cons_append, List.append_assoc, List.nil_append] at hitems ⊢
      exact value?_array hwhite hc hitems
  | @object room fields hkeys _ ih =>
    rw [floatless_object] at hfloat
    apply readBack_of_succ (floatless_object.mpr hfloat)
    intro depth d rest hdepth _
    cases fields with
    | nil =>
      rw [writeAt, List.cons_append, value?]
      rfl
    | cons f fields =>
      rw [writeAt_object] at hdepth ⊢
      obtain ⟨tail, htext⟩ := exists_fieldText (d + 1) f
      have hfields := fields?_write hfloat (fun g hg => ih g hg (hfloat g hg)) depth (d + 1) rest
        (by simp at hdepth ⊢; omega)
      rw [htext] at hfields ⊢
      simp only [List.cons_append, List.append_assoc, List.nil_append] at hfields ⊢
      exact value?_object hfields hkeys

/-! ### Whole texts -/

theorem isAscii_writeItems (h : ∀ v ∈ items, ∀ d, ∀ c ∈ writeAt compact d v, IsAscii c) (d : Nat) :
    ∀ c ∈ writeItems compact d items, IsAscii c := by
  induction items with
  | nil => simp [writeItems]
  | cons item items ih =>
    obtain ⟨hitem, hitems⟩ := List.forall_mem_cons.mp h
    rw [writeItems_cons, List.forall_mem_cons, List.forall_mem_cons, List.forall_mem_append]
    exact ⟨by decide, by decide, hitem d, ih hitems⟩

theorem isAscii_fieldText {f : Units × Json} (h : ∀ c ∈ writeAt compact d f.2, IsAscii c) :
    ∀ c ∈ fieldText d f, IsAscii c := by
  rw [fieldText, List.forall_mem_append, List.forall_mem_cons, List.forall_mem_cons]
  exact ⟨isAscii_stringAscii, by decide, by decide, h⟩

theorem isAscii_writeFields (h : ∀ f ∈ fields, ∀ d, ∀ c ∈ writeAt compact d f.2, IsAscii c) (d : Nat) :
    ∀ c ∈ writeFields compact d fields, IsAscii c := by
  induction fields with
  | nil => simp [writeFields]
  | cons f fields ih =>
    obtain ⟨hfield, hfields⟩ := List.forall_mem_cons.mp h
    rw [writeFields_cons, List.forall_mem_cons, List.forall_mem_cons, List.forall_mem_append]
    exact ⟨by decide, by decide, isAscii_fieldText (hfield d), ih hfields⟩

/-- Only printable characters of ASCII are written. -/
theorem isAscii_writeAt (h : Fits room v) (hfloat : floatless v = true) (d : Nat) :
    ∀ c ∈ writeAt compact d v, IsAscii c := by
  induction h generalizing d with
  | null => rw [writeAt]; exact isAscii_of_all rfl
  | bool b => cases b <;> (rw [writeAt]; exact isAscii_of_all rfl)
  | int _ => exact isAscii_intText
  | float x => cases hfloat
  | string us => exact isAscii_stringAscii
  | @array room items _ ih =>
    rw [floatless_array] at hfloat
    cases items with
    | nil => rw [writeAt]; exact isAscii_of_all rfl
    | cons item items =>
      obtain ⟨hitem, hitems⟩ := List.forall_mem_cons.mp fun v hv => ih v hv (hfloat v hv)
      rw [writeAt_array, List.forall_mem_cons, List.forall_mem_append, List.forall_mem_append,
        List.forall_mem_singleton]
      exact ⟨by decide, hitem (d + 1), isAscii_writeItems hitems (d + 1), by decide⟩
  | @object room fields _ _ ih =>
    rw [floatless_object] at hfloat
    cases fields with
    | nil => rw [writeAt]; exact isAscii_of_all rfl
    | cons f fields =>
      obtain ⟨hfield, hfields⟩ := List.forall_mem_cons.mp fun g hg => ih g hg (hfloat g hg)
      rw [writeAt_object, List.forall_mem_cons, List.forall_mem_append, List.forall_mem_append,
        List.forall_mem_singleton]
      exact ⟨by decide, isAscii_fieldText (hfield (d + 1)), isAscii_writeFields hfields (d + 1),
        by decide⟩

/-- A value that fits, and has no floating point number in it, is read back from its text. -/
theorem parse_write (h : Fits nestingLimit v) (hfloat : floatless v = true) :
    parse (v.write compact) = .ok v := by
  obtain ⟨c, tail, htext, hwhite, -⟩ := exists_writeAt 0 hfloat
  have hmark : (writeAt compact 0 v).head? ≠ some '\ufeff' := by
    intro hhead
    have hascii := isAscii_writeAt h hfloat 0 '\ufeff' (List.mem_of_head? hhead)
    revert hascii
    decide
  have hread := readBack_of_fits h hfloat (2 * (writeAt compact 0 v).length + 2) 0 [] (by omega) nofun
  rw [List.append_nil] at hread
  have hskip : skipWhite (writeAt compact 0 v) = writeAt compact 0 v := by
    rw [htext, skipWhite_of_not_white hwhite]
  rw [parse_eq_ok, write, String.toList_ofList, document?, if_neg hmark, hskip]
  simp only [bind, Except.bind, hread]
  rfl

end LintDebt.Json
