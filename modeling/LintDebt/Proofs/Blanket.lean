import LintDebt.Blanket
import LintDebt.Proofs.Text.Joined
import LintDebt.Proofs.Text.Trim
import LintDebt.Proofs.TextFile
import LintDebt.Suppression.Comment

/-! # Comments that are taken for blanket comments

A reader looks at the first line that is not blank. Where that is the first line of a comment, it is
the part of the comment before the first line end, because the name of a rule may hold anything. Such
a line disables every rule exactly if it disables and names nothing (`isBlanket_disable`). -/

namespace LintDebt

open Text

namespace Blanket

variable {line : List Char} {lines own : List (List Char)}

theorem firstLine?_append (lines rest : List (List Char)) :
    firstLine? (lines ++ rest) = (firstLine? lines).or (firstLine? rest) := by
  rw [firstLine?, firstLine?, firstLine?, List.map_append, List.find?_append]

theorem firstLine?_cons (line : List Char) (rest : List (List Char)) :
    firstLine? (line :: rest) = if trim line = [] then firstLine? rest else some (trim line) := by
  rw [firstLine?, firstLine?, List.map_cons, List.find?_cons]
  by_cases hline : trim line = [] <;> simp [hline]

theorem firstLine?_eq_none : firstLine? lines = none ↔ ∀ line ∈ lines, trim line = [] := by
  simp [firstLine?]

/-- A last line that is left out is empty. -/
theorem firstLine?_lines (s : List Char) :
    firstLine? (Text.lines s) = firstLine? (pieces (normalize s)) := by
  rw [Text.lines]
  split
  · next hlast =>
    obtain ⟨init, hinit⟩ : ∃ init, pieces (normalize s) = init ++ [[]] :=
      ⟨_, (List.dropLast_append_getLast? _ hlast).symm⟩
    rw [hinit, List.dropLast_concat, firstLine?_append]
    exact Option.or_none.symm
  · rfl

/-- Behind blank lines a text goes on with its first line that is not blank. -/
theorem firstLine?_intercalate (hown : ∀ line ∈ own, Whole line) (hline : trim (opening line) ≠ [])
    (rest : List (List Char)) :
    firstLine? (pieces (normalize (['\n'].intercalate (own ++ line :: rest)))) =
      (firstLine? own).or (some (trim (opening line))) := by
  induction own with
  | nil =>
    have hopening : opening (['\n'].intercalate (line :: rest)) = opening line := by
      cases rest with
      | nil => rw [List.intercalate_singleton]
      | cons next rest =>
        rw [List.intercalate_cons_cons, List.append_assoc]
        exact opening_append_lineFeed line _
    obtain ⟨others, hothers⟩ := exists_pieces_cons (['\n'].intercalate (line :: rest))
    rw [List.nil_append, hothers, hopening, firstLine?_cons, if_neg hline]
    rfl
  | cons first own ih =>
    obtain ⟨hfirst, hown⟩ := List.forall_mem_cons.mp hown
    obtain ⟨next, others, hnext⟩ := List.exists_cons_of_ne_nil
      (List.append_ne_nil_of_right_ne_nil own (List.cons_ne_nil line rest))
    rw [List.cons_append, hnext, List.intercalate_cons_cons, List.append_assoc, ← hnext,
      List.singleton_append, pieces_append_lineFeed hfirst, firstLine?_cons, firstLine?_cons, ih hown]
    split <;> rfl

theorem covers_of_encoded {t : FileTree} {p : Path} {text : List Char}
    (h : t.read p.text = .ok (Utf8.encode text)) :
    covers t p = .ok ((firstLine? (pieces (normalize (unmarked text)))).any isBlanket) := by
  rw [covers, TextFile.stream_of_read h, stream_encode, ← firstLine?_lines]
  cases hline : firstLine? (Text.lines (unmarked text)) with
  | none => simp only [bind, Except.bind, hline]; rfl
  | some line => simp only [bind, Except.bind, hline]; rfl

end Blanket

namespace Suppression

variable {names : List (List Char)}

/-- The characters of a comment before the names of its rules. -/
def beginning (command : String) : List Char := s!"/* stylelint-{command} ".toList

/-- The characters of a comment that names these rules. -/
def spelled (command : String) (names : List (List Char)) : List Char :=
  beginning command ++ ([','].intercalate names ++ " */".toList)

/-- Holds for rules with which a comment names nothing on its first line: it is only one and blank,
or the first of them closes the comment and then ends the line. -/
def Nameless (names : List (List Char)) : Prop :=
  (names.length ≤ 1 ∧ ∀ name ∈ names, Whole name ∧ trim name = []) ∨
    ∃ name ∈ names.head?, ¬ Whole name ∧ trim (opening name) = "*/".toList

instance (line : List Char) : Decidable (Whole line) :=
  inferInstanceAs (Decidable ('\n' ∉ line ∧ '\r' ∉ line))

instance (names : List (List Char)) : Decidable (Nameless names) :=
  inferInstanceAs (Decidable ((names.length ≤ 1 ∧ ∀ name ∈ names, Whole name ∧ trim name = []) ∨
    ∃ name ∈ names.head?, ¬ Whole name ∧ trim (opening name) = "*/".toList))

theorem commentLine_map_units (command : String) (names : List (List Char)) :
    commentLine command (names.map units) = units (spelled command names) := by
  have hnames : units ([','].intercalate names) = (unitsOf ",").intercalate (names.map units) :=
    units_intercalate (u := 0x2c) rfl names
  rw [commentLine, List.append_assoc, spelled, units, List.flatMap_append, List.flatMap_append]
  exact congrArg (fun us => units (beginning command) ++ (us ++ unitsOf " */")) hnames.symm

/-- What a comment names on its first line is nothing but the end of a comment exactly if it is
nameless. -/
theorem trim_opening_names :
    trim (opening ([','].intercalate names ++ " */".toList)) = "*/".toList ↔ Nameless names := by
  have hclose : Whole " */".toList := by decide
  cases names with
  | nil => exact iff_of_true (by decide) (Or.inl ⟨Nat.zero_le 1, nofun⟩)
  | cons name rest =>
  cases rest with
  | nil =>
    rw [List.intercalate_singleton, Nameless]
    by_cases hname : Whole name
    · rw [opening_append_of_whole hname, opening_of_whole hclose, trim_append_close]
      simp [hname]
    · rw [opening_append_of_not_whole hname]
      simp [hname]
  | cons next rest =>
    have hmore : [','].intercalate (name :: next :: rest) =
        name ++ ',' :: [','].intercalate (next :: rest) := by
      rw [List.intercalate_cons_cons, List.append_assoc]
      rfl
    rw [hmore, List.append_assoc, List.cons_append, Nameless]
    by_cases hname : Whole name
    · rw [opening_append_of_whole hname, opening_cons, if_neg (by decide)]
      refine iff_of_false (fun h => ?_) (by simp [hname])
      have hblank : isBlank ',' = false := by decide
      have hcomma : ',' ∈ "*/".toList :=
        h ▸ mem_trim (List.mem_append_right name List.mem_cons_self) hblank
      revert hcomma
      decide
    · rw [opening_append_of_not_whole hname]
      simp [hname]

theorem isBlanket_append (s : List Char) : Blanket.isBlanket ("/* stylelint-disable".toList ++ s) =
    decide (s.dropWhile isBlank = "*/".toList) := by
  have hstart : "/*".toList.isPrefixOf? ("/* stylelint-disable".toList ++ s) =
      some (" stylelint-disable".toList ++ s) := rfl
  have hblank : (" stylelint-disable".toList ++ s).dropWhile isBlank =
      "stylelint-disable".toList ++ s := rfl
  have hrest : "stylelint-disable".toList.isPrefixOf? ("stylelint-disable".toList ++ s) = some s := rfl
  simp only [Blanket.isBlanket, hstart, hblank, hrest]

theorem trim_disable (s : List Char) : trim ("/* stylelint-disable".toList ++ s) =
    "/* stylelint-disable".toList ++ trimEnd s := by
  have hstart : ("/* stylelint-disable".toList ++ s).dropWhile isBlank =
    "/* stylelint-disable".toList ++ s := rfl
  have hend : trimEnd "/* stylelint-disable".toList = "/* stylelint-disable".toList := by decide
  rw [trim, hstart, trimEnd_append, hend]
  split
  · next hs => rw [hs, List.append_nil]
  · rfl

theorem isBlanket_disable : Blanket.isBlanket (trim (opening (spelled "disable" names))) = true ↔
    Nameless names := by
  have hbeginning : beginning "disable" = "/* stylelint-disable".toList ++ [' '] := by decide
  rw [spelled, opening_append_of_whole (by decide), hbeginning, List.append_assoc,
    trim_disable, isBlanket_append, dropWhile_trimEnd, decide_eq_true_eq, ← trim_opening_names]
  rfl

theorem isBlanket_disableNextLine :
    Blanket.isBlanket (trim (opening (spelled "disable-next-line" names))) = false := by
  have hbeginning : beginning "disable-next-line" =
      "/* stylelint-disable".toList ++ "-next-line ".toList := by decide
  rw [spelled, opening_append_of_whole (by decide), hbeginning, List.append_assoc,
    trim_disable, isBlanket_append, dropWhile_trimEnd, decide_eq_false_iff_not]
  intro h
  have hdash : '-' ∈ "*/".toList :=
    h ▸ mem_trim (List.mem_append_left _ (List.mem_cons_self : '-' ∈ "-next-line ".toList)) (by decide)
  revert hdash
  decide

theorem exists_spelled (command : String) (names : List (List Char)) :
    ∃ rest, spelled command names = '/' :: rest := by
  rw [spelled, beginning, String.toList_append, String.toList_append]
  exact ⟨_, rfl⟩

/-- A comment is not blank. -/
theorem trim_opening_spelled (command : String) (names : List (List Char)) :
    trim (opening (spelled command names)) ≠ [] := by
  obtain ⟨rest, hspelled⟩ := exists_spelled command names
  have hslash : '/' ∈ opening (spelled command names) := by
    rw [hspelled, opening_cons, if_neg (by decide)]
    exact List.mem_cons_self
  exact List.ne_nil_of_mem (mem_trim hslash (by decide))

end Suppression
end LintDebt
