import LintDebt.Proofs.Text.Joined
import LintDebt.Proofs.TextFile

/-! # The readers of a text file agree

One reader gets the pieces of a file all at once, another gets its lines while it decodes, and a
third only counts the pieces. On a file that holds a text they see the same lines: the reader of lines
takes a byte order mark off the first piece, and does not see a last piece that is empty. -/

namespace LintDebt.TextFile

variable {t : FileTree} {p : Path} {text : List Char}

/-- The lines that these pieces of a text are read as. -/
def linesOf (ps : List String) : List String :=
  let unmarked := ps.modifyHead fun first => String.ofList (Text.unmarked first.toList)
  if unmarked.getLast? = some "" then unmarked.dropLast else unmarked

/-- The pieces of a file that holds a text. -/
theorem pieces_of_encoded (h : t.read p.text = .ok (Utf8.encode text)) :
    pieces t p = .ok ((Text.pieces (Text.normalize text)).map String.ofList) := by
  rw [pieces_of_read h, Utf8.decode_encode]

/-- The lines of a file that holds a text. -/
theorem lines_of_encoded (h : t.read p.text = .ok (Utf8.encode text)) :
    lines t p = .ok ((Text.lines (Text.unmarked text)).map String.ofList) := by
  rw [lines, stream_of_read h, Text.stream_encode]
  rfl

theorem linesOf_map (parts : List (List Char)) : linesOf (parts.map String.ofList) =
    let unmarked := parts.modifyHead Text.unmarked
    (if unmarked.getLast? = some [] then unmarked.dropLast else unmarked).map String.ofList := by
  have hhead : (parts.map String.ofList).modifyHead
      (fun first => String.ofList (Text.unmarked first.toList)) =
      (parts.modifyHead Text.unmarked).map String.ofList := by
    cases parts <;> simp
  have hlast : ∀ parts : List (List Char),
      (parts.map String.ofList).getLast? = some "" ↔ parts.getLast? = some [] := by
    intro parts
    rw [List.getLast?_map, Option.map_eq_some_iff]
    simp
  dsimp only [linesOf]
  simp only [hhead, hlast]
  rw [apply_ite (List.map String.ofList), List.map_dropLast]

/-- The lines of a text are the lines of its pieces. -/
theorem map_lines_unmarked (text : List Char) :
    (Text.lines (Text.unmarked text)).map String.ofList =
      linesOf ((Text.pieces (Text.normalize text)).map String.ofList) := by
  rw [linesOf_map, Text.lines, Text.pieces_unmarked]

/-- Of a file that holds a text the three readers see the same lines, whichever way these end. -/
theorem readers_agree (t : FileTree) (p : Path) (text : List Char)
    (h : t.read p.text = .ok (Utf8.encode text)) :
    ∃ ps, pieces t p = .ok ps ∧ lines t p = .ok (linesOf ps) ∧
      measure t p = .ok ⟨(Utf8.encode text).length, ps.length⟩ := by
  refine ⟨_, pieces_of_encoded h, ?_, ?_⟩
  · rw [lines_of_encoded h, map_lines_unmarked]
  · rw [measure_of_read h, Utf8.decode_encode, List.length_map]

/-- A stylesheet with a mark, a blank line, every kind of line end, and one at its end. -/
def motley : FileTree where
  nodes := Std.ExtTreeMap.ofList [
    (["a.css"], Node.file (Utf8.encode "\ufeffa\r\nb\r\rc\n".toList))]
  here := []

theorem readers_agree_motley :
    pieces motley (Path.parse "a.css") = .ok ["\ufeffa", "b", "", "c", ""] ∧
    lines motley (Path.parse "a.css") = .ok ["a", "b", "", "c"] ∧
    measure motley (Path.parse "a.css") = .ok ⟨11, 5⟩ := by
  obtain ⟨ps, hpieces, hlines, hmeasure⟩ := readers_agree motley (Path.parse "a.css")
    "\ufeffa\r\nb\r\rc\n".toList (by decide +kernel)
  have hps : pieces motley (Path.parse "a.css") = .ok ["\ufeffa", "b", "", "c", ""] := by
    decide +kernel
  rw [hps] at hpieces
  cases hpieces
  exact ⟨hps, by rw [hlines]; decide +kernel, by rw [hmeasure]; decide +kernel⟩

end LintDebt.TextFile
