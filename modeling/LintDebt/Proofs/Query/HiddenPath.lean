import LintDebt.Query

/-! # The hidden path

The hidden path is written like the path itself, with the suffix after it. So to the system it is
another name in the same directory, unless the path does not end with a name. -/

namespace LintDebt

/-- A text in parts, and what comes of a text that is written after it. -/
theorem exists_slashParts (s : String) : ∃ init last,
    (last = "" → s = "" ∨ s.toList.getLast? = some '/') ∧
      ∀ suffix : String, '/' ∉ suffix.toList →
        slashParts (s ++ suffix) = init ++ [last ++ suffix] := by
  by_cases hslash : '/' ∈ s.toList
  · obtain ⟨post, pre, hrev, hpost⟩ := List.eq_append_cons_of_mem (List.mem_reverse.mpr hslash)
    have hs : s.toList = pre.reverse ++ '/' :: post.reverse := by
      rw [← List.reverse_reverse s.toList, hrev]
      simp
    refine ⟨(pre.reverse.splitOn '/').map String.ofList, String.ofList post.reverse, ?_, ?_⟩
    · intro hlast
      right
      have hnil : post.reverse = [] := by simpa using congrArg String.toList hlast
      rw [hs, hnil]
      simp
    · intro suffix hsuffix
      have hnot : '/' ∉ post.reverse ++ suffix.toList := by
        simp only [List.mem_append, List.mem_reverse]
        rintro (h | h)
        · exact hpost h
        · exact hsuffix h
      rw [slashParts, String.toList_append, hs, List.append_assoc, List.cons_append,
        List.splitOn_append_cons_self, List.splitOn_eq_singleton hnot]
      simp
  · refine ⟨[], s, fun h => Or.inl h, fun suffix hsuffix => ?_⟩
    have hnot : '/' ∉ s.toList ++ suffix.toList := by
      simp only [List.mem_append]
      rintro (h | h)
      · exact hslash h
      · exact hsuffix h
    rw [slashParts, String.toList_append, List.splitOn_eq_singleton hnot]
    simp

theorem joinSlash_concat (init : List String) (last suffix : String) :
    joinSlash (init ++ [last ++ suffix]) = joinSlash (init ++ [last]) ++ suffix.toList := by
  induction init with
  | nil => simp [joinSlash, List.intercalate]
  | cons name rest ih =>
    cases rest with
    | nil => simp [joinSlash, List.intercalate]
    | cons _ _ =>
      simp only [joinSlash, List.intercalate, List.cons_append, List.map_cons,
        List.intersperse_cons_cons, List.flatten_cons, List.append_assoc] at ih ⊢
      rw [ih]

theorem Path.text_concat (root : Root) (init : List String) (last suffix : String) :
    (Path.mk root (init ++ [last ++ suffix])).text =
      (Path.mk root (init ++ [last])).text ++ suffix := by
  rw [← String.toList_inj, String.toList_append]
  cases root with
  | relative =>
    have h := joinSlash_concat init last suffix
    cases init <;> simpa [Path.text] using h
  | absolute => simp [Path.text, joinSlash_concat]
  | doubled => simp [Path.text, joinSlash_concat]

namespace Query

theorem text_hiddenPath {p hidden : Path} (h : hiddenPath p = .ok hidden) :
    hidden.text = p.text ++ hiddenSuffix := by
  rw [hiddenPath] at h
  cases hname : p.name? with
  | none => rw [hname] at h; cases h
  | some name =>
    rw [hname] at h
    cases h
    obtain ⟨root, names⟩ := p
    obtain ⟨init, rfl⟩ := List.getLast?_eq_some_iff.mp hname
    simp only [List.dropLast_concat]
    exact Path.text_concat root init name hiddenSuffix

/-- A path that gets to the tree at all has a hidden path that does. -/
theorem nonnull_hiddenPath {p hidden : Path} (h : hiddenPath p = .ok hidden)
    (hnull : '\x00' ∉ p.text.toList) : '\x00' ∉ hidden.text.toList := by
  rw [text_hiddenPath h, String.toList_append, List.mem_append]
  exact fun hmem => hmem.elim hnull (by simp [hiddenSuffix])

/-- How the system reads the hidden path of a path that ends with a name. -/
theorem parse_hiddenPath {p hidden : Path} {name : String} (h : hiddenPath p = .ok hidden)
    (hslash : (Route.parse p.text).slashed = false)
    (hname : (Route.parse p.text).names.getLast? = some name) :
    (Route.parse hidden.text).absolute = (Route.parse p.text).absolute ∧
      (Route.parse hidden.text).names =
        (Route.parse p.text).names.dropLast ++ [name ++ hiddenSuffix] := by
  rw [text_hiddenPath h]
  generalize p.text = s at *
  obtain ⟨init, last, hlast, hparts⟩ := exists_slashParts s
  have hs : s ≠ "" := by
    rintro rfl
    simp [Route.parse, slashParts] at hname
  have hnonempty : last ≠ "" := by
    intro he
    rcases hlast he with he | he
    · exact hs he
    · simp [Route.parse, he] at hslash
  have hplain := hparts "" (by simp)
  rw [String.append_empty, String.append_empty] at hplain
  have hnames : (Route.parse s).names = init.filter (· ≠ "") ++ [last] := by
    simp [Route.parse, hplain, hnonempty]
  obtain rfl : last = name := by
    rw [hnames, List.getLast?_concat] at hname
    exact Option.some.inj hname
  have hsuffix : last ++ hiddenSuffix ≠ "" := by
    intro he
    simpa [hiddenSuffix] using congrArg String.toList he
  refine ⟨?_, ?_⟩
  · cases hchars : s.toList with
    | nil => exact absurd (String.toList_eq_nil_iff.mp hchars) hs
    | cons c cs => simp [Route.parse, hchars]
  · rw [hnames, List.dropLast_concat]
    simp [Route.parse, hparts hiddenSuffix (by decide), hsuffix]

theorem unslashed_hiddenPath {p hidden : Path} (h : hiddenPath p = .ok hidden) :
    (Route.parse hidden.text).slashed = false := by
  rw [text_hiddenPath h]
  simp [Route.parse, hiddenSuffix]

end Query
end LintDebt
