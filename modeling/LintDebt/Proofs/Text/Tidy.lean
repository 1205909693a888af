import LintDebt.Proofs.Text.Lines
import Mathlib.Data.List.Infix

/-! # Texts in order

Reading a text line by line and writing its lines out again sets it in order: a byte order mark at
its start goes, every line end becomes LF, and the last line gets one too. A text that is in order
already comes back as it was, and no other text does (`tidied_eq_self_iff`). -/

namespace LintDebt.Text

/-- The text after a leading byte order mark. -/
def unmarked (s : List Char) : List Char := if s.head? = some '\ufeff' then s.tail else s

/-- The text with LF at its end, if it holds anything. -/
def ended (s : List Char) : List Char :=
  if s = [] ∨ s.getLast? = some '\n' then s else s ++ ['\n']

def tidied (s : List Char) : List Char := ended (normalize (unmarked s))

/-- Holds for a text without a leading byte order mark whose lines all end with LF. -/
structure Tidy (s : List Char) : Prop where
  unmarked : s.head? ≠ some '\ufeff'
  lineFeeds : '\r' ∉ s
  ended : s = [] ∨ s.getLast? = some '\n'

variable {s : List Char}

theorem intercalate_concat {α : Type} (a : α) {parts : List (List α)} (h : parts ≠ []) :
    [a].intercalate parts ++ [a] = parts.flatMap (· ++ [a]) := by
  induction parts with
  | nil => exact absurd rfl h
  | cons part rest ih =>
    cases rest with
    | nil => simp
    | cons next rest =>
      rw [List.intercalate_cons_cons, List.append_assoc, ih (List.cons_ne_nil next rest)]
      rfl

theorem flatMap_pieces (s : List Char) : (pieces s).flatMap (· ++ ['\n']) = s ++ ['\n'] := by
  rw [pieces, ← intercalate_concat '\n' (List.splitOn_ne_nil '\n' s), List.intercalate_splitOn]

/-- A text is its pieces, each but the last one ended. -/
theorem exists_pieces (s : List Char) : ∃ init last, pieces s = init ++ [last] ∧ '\n' ∉ last ∧
    s = init.flatMap (· ++ ['\n']) ++ last := by
  obtain ⟨init, last, hpieces⟩ := (pieces s).eq_nil_or_concat.resolve_left (List.splitOn_ne_nil '\n' s)
  rw [List.concat_eq_append] at hpieces
  have hwhole := flatMap_pieces s
  rw [hpieces, List.flatMap_append, List.flatMap_singleton, ← List.append_assoc] at hwhole
  have hlast : last ∈ pieces s := by
    rw [hpieces]
    exact List.mem_append_right init List.mem_cons_self
  exact ⟨init, last, hpieces, (mem_splitOn hlast).1, (List.append_cancel_right hwhole).symm⟩

theorem getLast?_flatMap_ended {init : List (List Char)} (h : init ≠ []) :
    (init.flatMap (· ++ ['\n'])).getLast? = some '\n' := by
  obtain ⟨before, line, rfl⟩ := init.eq_nil_or_concat.resolve_left h
  rw [List.concat_eq_append, List.flatMap_append, List.flatMap_singleton, ← List.append_assoc,
    List.getLast?_concat]

/-- The lines of a text, each ended, are the text with its end. -/
theorem renderLines_lines (s : List Char) :
    IgnoreList.renderLines ((lines s).map String.ofList) = ended (normalize s) := by
  obtain ⟨init, last, hpieces, hline, htext⟩ := exists_pieces (normalize s)
  have hrender : ∀ ls : List (List Char),
      IgnoreList.renderLines (ls.map String.ofList) = ls.flatMap (· ++ ['\n']) := by
    intro ls
    simp [IgnoreList.renderLines, List.flatMap_map]
  rw [hrender, lines, hpieces, List.getLast?_concat, List.dropLast_concat]
  by_cases hlast : last = []
  · subst hlast
    rw [List.append_nil] at htext
    have hended : normalize s = [] ∨ (normalize s).getLast? = some '\n' := by
      rcases init.eq_nil_or_concat with rfl | ⟨before, line, rfl⟩
      · exact Or.inl htext
      · rw [htext]
        exact Or.inr (getLast?_flatMap_ended (by simp))
    simp only [ended, if_pos hended, ↓reduceIte]
    exact htext.symm
  · have hopen : ¬ (normalize s = [] ∨ (normalize s).getLast? = some '\n') := by
      rw [htext, List.append_eq_nil_iff, List.getLast?_append,
        Option.or_of_isSome (by simpa using hlast)]
      rintro (⟨-, hnil⟩ | hlf)
      · exact hlast hnil
      · exact hline (List.mem_of_getLast? hlf)
    rw [if_neg (by simpa using hlast), ended, if_neg hopen, ← flatMap_pieces, hpieces]

/-- No text but the mark itself has only a part of the octets of the mark. -/
theorem of_encode_prefix_mark (h : Utf8.encode s <+: Utf8.byteOrderMark) :
    s = [] ∨ s = ['\ufeff'] := by
  have hdecode := Utf8.decode_encode s
  have hparts : Utf8.encode s ∈ [[], [0xef], [0xef, 0xbb], [0xef, 0xbb, 0xbf]] :=
    (List.mem_inits _ _).mpr h
  have hread : ∀ octets ∈ [[], [0xef], [0xef, 0xbb], [0xef, 0xbb, 0xbf]],
      ∀ text ∈ (Utf8.decode octets).toOption, text = [] ∨ text = ['\ufeff'] := by
    decide +kernel
  refine hread _ hparts s ?_
  rw [hdecode]
  rfl

theorem afterMark_encode (s : List Char) : afterMark (Utf8.encode s) = Utf8.encode (unmarked s) := by
  rw [afterMark, unmarked]
  by_cases hmark : s.head? = some '\ufeff'
  · obtain ⟨rest, rfl⟩ := List.head?_eq_some_iff.mp hmark
    have hoctets : Utf8.encode ('\ufeff' :: rest) = Utf8.byteOrderMark ++ Utf8.encode rest := rfl
    rw [if_pos hmark, List.tail_cons, hoctets,
      if_pos (List.isPrefixOf_iff_prefix.mpr (List.prefix_append _ _))]
    split
    · next hpart =>
      rcases of_encode_prefix_mark (hoctets ▸ List.isPrefixOf_iff_prefix.mp hpart) with h | h
      · cases h
      · cases h
        rfl
    · rfl
  · rw [if_neg hmark, not_mark_encode hmark, if_neg Bool.false_ne_true]
    split
    · next hpart =>
      rcases of_encode_prefix_mark (List.isPrefixOf_iff_prefix.mp hpart) with rfl | rfl
      · rfl
      · exact absurd rfl hmark
    · rfl

theorem stream_encode (s : List Char) : stream (Utf8.encode s) = ⟨lines (unmarked s), none⟩ := by
  rw [stream, afterMark_encode, Utf8.scan_encode]

theorem length_normalize_le (s : List Char) : (normalize s).length ≤ s.length := by
  fun_induction normalize s with
  | case1 => exact Nat.le_refl 0
  | case2 s ih =>
    rw [List.length_cons, List.length_cons, List.length_cons]
    omega
  | case3 c s _ ih =>
    rw [List.length_cons, List.length_cons]
    omega

theorem getLast?_normalize (h : s.getLast? = some '\n') : (normalize s).getLast? = some '\n' := by
  fun_induction normalize s with
  | case1 => cases h
  | case2 s ih =>
    cases s with
    | nil => rfl
    | cons c s =>
      rw [List.getLast?_cons_cons, List.getLast?_cons_cons] at h
      rw [List.getLast?_cons, ih h]
      rfl
  | case3 c s _ ih =>
    cases s with
    | nil =>
      obtain rfl : c = '\n' := by simpa using h
      rfl
    | cons d s =>
      rw [List.getLast?_cons_cons] at h
      rw [List.getLast?_cons, ih h]
      rfl

theorem Tidy.tidied_eq (h : Tidy s) : tidied s = s := by
  rw [tidied, Text.unmarked, if_neg h.unmarked, normalize_eq_self h.lineFeeds, Text.ended,
    if_pos h.ended]

theorem tidied_eq_self_iff : tidied s = s ↔ Tidy s := by
  refine ⟨fun heq => ?_, Tidy.tidied_eq⟩
  have hended : ∀ u, ended u = [] ∨ (ended u).getLast? = some '\n' := by
    intro u
    rw [ended]
    split
    · next h => exact h
    · exact Or.inr List.getLast?_concat
  have hfeeds : '\r' ∉ tidied s := by
    rw [tidied, ended]
    split
    · exact not_mem_normalize _
    · simp [not_mem_normalize]
  refine ⟨fun hmark => ?_, heq ▸ hfeeds, heq ▸ hended _⟩
  -- Without its mark the text is too short, unless its last line gets an end, and then it had one.
  obtain ⟨rest, rfl⟩ : ∃ rest, s = '\ufeff' :: rest := List.head?_eq_some_iff.mp hmark
  have hle := length_normalize_le rest
  have hlast := hended (normalize rest)
  have htidied : tidied ('\ufeff' :: rest) = ended (normalize rest) := by
    rw [tidied, unmarked, if_pos hmark, List.tail_cons]
  rw [htidied] at heq
  rw [ended] at heq hlast
  split at heq
  · rw [heq, List.length_cons] at hle
    omega
  · next hopen =>
    refine hopen ?_
    have hend : ('\ufeff' :: rest).getLast? = some '\n' := by
      rw [← heq]
      exact List.getLast?_concat
    cases rest with
    | nil => simp at hend
    | cons c rest =>
      rw [List.getLast?_cons_cons] at hend
      exact Or.inr (getLast?_normalize hend)

end LintDebt.Text
