import LintDebt.Proofs.Text.Tidy
import LintDebt.Proofs.Text.Units

/-! # Texts put together from lines

A text is read up to its first line end, of whichever kind that is. So a part without line ends that
stands before LF is a line as it is, and a text that is put together from such parts has them as its
pieces. A byte order mark at the start of the text is one at the start of the first part. -/

namespace LintDebt.Text

variable {s t line : List Char} {c : Char}

/-- The part of a text before its first line end. -/
def opening (s : List Char) : List Char := s.takeWhile fun c => ¬ (c = '\n' ∨ c = '\r')

theorem opening_cons (c : Char) (s : List Char) :
    opening (c :: s) = if c = '\n' ∨ c = '\r' then [] else c :: opening s := by
  rw [opening, List.takeWhile_cons, ← opening]
  by_cases hc : c = '\n' ∨ c = '\r'
  · rw [if_neg (by simpa [or_iff_not_imp_left] using hc), if_pos hc]
  · rw [if_pos (by simpa using hc), if_neg hc]

theorem whole_cons : Whole (c :: s) ↔ ¬ (c = '\n' ∨ c = '\r') ∧ Whole s := by
  rw [Whole, Whole, List.mem_cons, List.mem_cons, eq_comm (a := c), eq_comm (a := c)]
  tauto

theorem opening_append_of_whole (h : Whole s) (t : List Char) : opening (s ++ t) = s ++ opening t := by
  induction s with
  | nil => rfl
  | cons c s ih =>
    obtain ⟨hc, hs⟩ := whole_cons.mp h
    rw [List.cons_append, opening_cons, if_neg hc, ih hs, List.cons_append]

theorem opening_of_whole (h : Whole s) : opening s = s := by
  have hs := opening_append_of_whole h []
  rw [List.append_nil] at hs
  exact hs.trans (List.append_nil s)

theorem opening_append_of_not_whole (h : ¬ Whole s) (t : List Char) : opening (s ++ t) = opening s := by
  induction s with
  | nil => exact absurd ⟨List.not_mem_nil, List.not_mem_nil⟩ h
  | cons c s ih =>
    rw [List.cons_append, opening_cons, opening_cons]
    by_cases hc : c = '\n' ∨ c = '\r'
    · rw [if_pos hc, if_pos hc]
    · rw [if_neg hc, if_neg hc, ih fun hs => h (whole_cons.mpr ⟨hc, hs⟩)]

theorem opening_append_lineFeed (s t : List Char) : opening (s ++ '\n' :: t) = opening s := by
  by_cases h : Whole s
  · rw [opening_append_of_whole h, opening_of_whole h, opening_cons, if_pos (Or.inl rfl),
      List.append_nil]
  · exact opening_append_of_not_whole h _

theorem normalize_cons (h : c ≠ '\r') : normalize (c :: s) = c :: normalize s := by
  rw [normalize, if_neg h]
  exact fun _ hreturn => absurd hreturn h

theorem normalize_append_of_whole (h : Whole line) (t : List Char) :
    normalize (line ++ t) = line ++ normalize t := by
  induction line with
  | nil => rfl
  | cons c line ih =>
    obtain ⟨hc, hline⟩ := whole_cons.mp h
    rw [List.cons_append, normalize_cons (fun hreturn => hc (Or.inr hreturn)), ih hline,
      List.cons_append]

theorem normalize_append_lineFeed (h : Whole line) (t : List Char) :
    normalize (line ++ '\n' :: t) = line ++ '\n' :: normalize t := by
  rw [normalize_append_of_whole h, normalize_cons (by decide)]

theorem pieces_append_lineFeed (h : Whole line) (t : List Char) :
    pieces (normalize (line ++ '\n' :: t)) = line :: pieces (normalize t) := by
  rw [normalize_append_lineFeed h, pieces, List.splitOn_append_cons_self_of_not_mem h.1]
  rfl

theorem exists_pieces_cons (s : List Char) : ∃ rest, pieces (normalize s) = opening s :: rest := by
  fun_induction normalize s with
  | case1 => exact ⟨[], rfl⟩
  | case2 s ih =>
    rw [pieces, List.splitOn_cons_eq_if_modifyHead, if_pos (beq_self_eq_true '\n'), opening_cons,
      if_pos (Or.inr rfl)]
    exact ⟨_, rfl⟩
  | case3 c s _ ih =>
    obtain ⟨rest, hrest⟩ := ih
    rw [opening_cons, pieces, List.splitOn_cons_eq_if_modifyHead]
    by_cases hc : c = '\n' ∨ c = '\r'
    · have hend : (if c = '\r' then '\n' else c) = '\n' := by
        split
        · rfl
        · next hr => exact hc.resolve_right hr
      rw [hend, if_pos (beq_self_eq_true '\n'), if_pos hc]
      exact ⟨_, rfl⟩
    · obtain ⟨hfeed, hreturn⟩ := not_or.mp hc
      rw [if_neg hreturn, if_neg (by simpa using hfeed), if_neg hc, ← pieces, hrest]
      exact ⟨rest, rfl⟩

theorem unmarked_append_lineFeed (line t : List Char) :
    unmarked (line ++ '\n' :: t) = unmarked line ++ '\n' :: t := by
  cases line with
  | nil => rfl
  | cons c line =>
    rw [List.cons_append, unmarked, unmarked, List.head?_cons, List.head?_cons]
    split <;> rfl

theorem unmarked_intercalate (parts : List (List Char)) :
    unmarked (['\n'].intercalate parts) = ['\n'].intercalate (parts.modifyHead unmarked) := by
  cases parts with
  | nil => rfl
  | cons line rest =>
    rw [List.modifyHead_cons]
    cases rest with
    | nil => rw [List.intercalate_singleton, List.intercalate_singleton]
    | cons next rest =>
      rw [List.intercalate_cons_cons, List.intercalate_cons_cons, List.append_assoc,
        List.append_assoc]
      exact unmarked_append_lineFeed line _

/-- A mark at the start of a text is in its first piece. -/
theorem pieces_unmarked (s : List Char) :
    pieces (normalize (unmarked s)) = (pieces (normalize s)).modifyHead unmarked := by
  cases s with
  | nil => rfl
  | cons c s =>
    by_cases hmark : c = '\ufeff'
    · subst hmark
      have hrest : unmarked ∘ ('\ufeff' :: ·) = id := rfl
      rw [normalize_cons (by decide), pieces, pieces, List.splitOn_cons_eq_if_modifyHead,
        if_neg (by decide), List.modifyHead_modifyHead, hrest, List.modifyHead_id]
      rfl
    · obtain ⟨rest, hpieces⟩ := exists_pieces_cons (c :: s)
      have hfirst : ∀ line, unmarked (c :: line) = c :: line := by
        intro line
        rw [unmarked, List.head?_cons, if_neg (fun h => hmark (Option.some.inj h))]
      rw [hfirst, hpieces, List.modifyHead_cons, opening_cons]
      split
      · rfl
      · rw [hfirst]

/-- Above a line that has no mark, the mark of the first piece stays where it is. -/
theorem unmarked_between {own : List (List Char)} {line : List Char} (hown : own ≠ [])
    (hline : unmarked line = line) (k : Nat) (behind : List (List Char)) :
    unmarked (['\n'].intercalate (own.take k ++ line :: behind)) =
      ['\n'].intercalate ((own.modifyHead unmarked).take k ++ line :: behind) := by
  obtain ⟨first, own, rfl⟩ := List.exists_cons_of_ne_nil hown
  rw [unmarked_intercalate]
  cases k with
  | zero => rw [List.take_zero, List.take_zero, List.nil_append, List.modifyHead_cons, hline]
  | succ k => rfl

/-- A text that is put together from lines has these lines. -/
theorem pieces_intercalate {parts : List (List Char)} (hne : parts ≠ [])
    (hwhole : ∀ part ∈ parts, Whole part) :
    pieces (normalize (['\n'].intercalate parts)) = parts := by
  have hreturn : '\r' ∉ ['\n'].intercalate parts := by
    intro hmem
    rcases mem_intercalate hmem with hmem | ⟨part, hpart, hmem⟩
    · exact absurd hmem (by decide)
    · exact (hwhole part hpart).2 hmem
  rw [normalize_eq_self hreturn, pieces,
    List.splitOn_intercalate _ (fun part hpart => (hwhole part hpart).1) hne]

end LintDebt.Text
