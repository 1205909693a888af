import LintDebt.Text.Blank
import Mathlib.Data.List.DropRight

/-! # Blanks at the ends of a line

What is not blank stops the trimming from both ends. So it does not matter which end is trimmed first,
and what stands before a part that is not blank is not trimmed from behind. -/

namespace LintDebt.Text

variable {s : List Char} {c : Char}

theorem trimEnd_eq_nil : trimEnd s = [] ↔ ∀ c ∈ s, isBlank c = true :=
  List.rdropWhile_eq_nil_iff

theorem trimEnd_append (s t : List Char) :
    trimEnd (s ++ t) = if trimEnd t = [] then trimEnd s else s ++ trimEnd t := by
  rw [trimEnd, trimEnd, trimEnd, List.reverse_append, List.dropWhile_append]
  simp only [List.reverse_eq_nil_iff, List.isEmpty_iff]
  split
  · rfl
  · rw [List.reverse_append, List.reverse_reverse]

theorem trimEnd_cons (c : Char) (s : List Char) : trimEnd (c :: s) =
    if trimEnd s = [] then (if isBlank c then [] else [c]) else c :: trimEnd s := by
  have hone : trimEnd [c] = if isBlank c then [] else [c] := List.rdropWhile_singleton isBlank c
  rw [← List.singleton_append, trimEnd_append, hone, List.singleton_append]

theorem dropWhile_trimEnd (s : List Char) : (trimEnd s).dropWhile isBlank = trim s := by
  induction s with
  | nil => rfl
  | cons c s ih =>
    rw [trim, trimEnd_cons, List.dropWhile_cons]
    by_cases hc : isBlank c = true
    · rw [if_pos hc, if_pos hc, ← trim, ← ih]
      split
      · next hs => rw [hs]
      · rw [List.dropWhile_cons_of_pos hc]
    · rw [if_neg hc, if_neg hc, trimEnd_cons, if_neg hc]
      split <;> rw [List.dropWhile_cons_of_neg hc]

/-- A character that is not blank is not trimmed. -/
theorem mem_trim (h : c ∈ s) (hc : isBlank c = false) : c ∈ trim s := by
  have hfront : c ∈ s.dropWhile isBlank := by
    rw [← List.takeWhile_append_dropWhile (p := isBlank) (l := s), List.mem_append] at h
    exact h.resolve_left fun htaken => by simp [List.mem_takeWhile_imp htaken] at hc
  have hparts : trim s ++ (s.dropWhile isBlank).rtakeWhile isBlank = s.dropWhile isBlank :=
    List.rdropWhile_append_rtakeWhile
  rw [← hparts, List.mem_append] at hfront
  exact hfront.resolve_right fun htaken => by simp [List.mem_rtakeWhile_imp htaken] at hc

theorem trim_eq_nil : trim s = [] ↔ ∀ c ∈ s, isBlank c = true := by
  constructor
  · intro h c hc
    by_contra hblank
    have hmem := mem_trim hc (Bool.eq_false_iff.mpr hblank)
    rw [h] at hmem
    cases hmem
  · intro h
    rw [trim, List.dropWhile_eq_nil_iff.mpr h]
    rfl

/-- What is cut off a line at its ends is blank. -/
theorem exists_blanks_trim (s : List Char) : ∃ before behind, (∀ c ∈ before, isBlank c = true) ∧
    (∀ c ∈ behind, isBlank c = true) ∧ s = before ++ (trim s ++ behind) := by
  refine ⟨s.takeWhile isBlank, (s.dropWhile isBlank).rtakeWhile isBlank,
    fun c => List.mem_takeWhile_imp, fun c => List.mem_rtakeWhile_imp, ?_⟩
  have hparts : trim s ++ (s.dropWhile isBlank).rtakeWhile isBlank = s.dropWhile isBlank :=
    List.rdropWhile_append_rtakeWhile
  rw [hparts, List.takeWhile_append_dropWhile]

/-- Blanks around a part are cut off together with those at its own ends. -/
theorem trim_blanks_append {before behind : List Char} (hbefore : ∀ c ∈ before, isBlank c = true)
    (hbehind : ∀ c ∈ behind, isBlank c = true) : trim (before ++ (s ++ behind)) = trim s := by
  have hfront : (before ++ (s ++ behind)).dropWhile isBlank = (s ++ behind).dropWhile isBlank :=
    List.dropWhile_append_of_pos hbefore
  rw [trim, hfront, ← trim, ← dropWhile_trimEnd, trimEnd_append, if_pos (trimEnd_eq_nil.mpr hbehind),
    dropWhile_trimEnd]

/-- A part that does not begin with a blank is what is left behind the first blanks exactly if only
blanks stand before it. -/
theorem dropWhile_eq_iff {part : List Char} (hpart : ∀ c ∈ part.head?, isBlank c = false) :
    s.dropWhile isBlank = part ↔ ∃ blanks, (∀ c ∈ blanks, isBlank c = true) ∧ s = blanks ++ part := by
  constructor
  · intro h
    refine ⟨s.takeWhile isBlank, fun c => List.mem_takeWhile_imp, ?_⟩
    rw [← h, List.takeWhile_append_dropWhile]
  · rintro ⟨blanks, hblanks, rfl⟩
    rw [List.dropWhile_append_of_pos hblanks]
    cases part with
    | nil => rfl
    | cons c part => exact List.dropWhile_cons_of_neg (by simp [hpart c rfl])

/-- A comment that is closed and says nothing else has only blanks before its end. -/
theorem trim_append_close : trim (s ++ " */".toList) = "*/".toList ↔ trim s = [] := by
  have hclose : trimEnd " */".toList = " */".toList := by decide
  rw [← dropWhile_trimEnd, trimEnd_append, hclose, if_neg (by decide), List.dropWhile_append,
    trim_eq_nil, ← List.dropWhile_eq_nil_iff]
  split
  · next hnil => exact iff_of_true rfl (List.isEmpty_iff.mp hnil)
  · next hne =>
    rw [List.isEmpty_iff] at hne
    refine iff_of_false (fun h => hne ?_) hne
    have hlength := congrArg List.length h
    simp at hlength

end LintDebt.Text
