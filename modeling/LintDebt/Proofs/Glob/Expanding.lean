import LintDebt.IgnoreList
import LintDebt.Proofs.Glob.Below
import Mathlib.Data.List.DropRight

/-! # The pattern of a line that names a directory

Such a line gets two parts more, `**` and `*.css`. Since the line itself has no magic in it, a search
for the pattern starts with the line, without the slashes at its end, and only these two parts are left
to match: any number of directories, and a name that ends as a stylesheet's does. -/

namespace LintDebt

namespace Glob

variable {t : FileTree} {pattern line name : String} {s rest stem : List Char}

theorem mem_ends : rest ∈ ends s ↔ rest <:+ s := by
  induction s with
  | nil => simp [ends]
  | cons c s ih => rw [ends, List.mem_cons, ih, List.suffix_cons_iff]

/-- Characters are taken one by one from where they may begin. -/
theorem any_foldl_chars (cs : List Char) (starts : List (List Char)) :
    ((cs.map Token.char).foldl (fun starts t => t.after starts) starts).any List.isEmpty = true ↔
      cs ∈ starts := by
  induction cs generalizing starts with
  | nil => simp
  | cons c cs ih =>
    rw [List.map_cons, List.foldl_cons, ih, Token.after, List.mem_filterMap]
    · constructor
      · rintro ⟨_ | ⟨c', s⟩, hs, h⟩
        · cases h
        · dsimp only at h
          split at h
          · next hc =>
            obtain rfl : c = c' := of_decide_eq_true hc
            cases h
            exact hs
          · cases h
      · exact fun hs => ⟨c :: cs, hs, by simp [Token.admits]⟩
    · nofun

/-- A star with characters after it covers what ends in them. -/
theorem covers_star_chars (cs : List Char) :
    covers (.star :: cs.map .char) s = true ↔ cs <:+ s := by
  rw [covers, List.foldl_cons, any_foldl_chars, ← mem_ends]
  rfl

/-- The pattern for the names of stylesheets. -/
def stylesheets : Part := .wild false (.star :: ".css".toList.map .char)

/-- A slash after a name does not count. -/
theorem bare_slash (hlast : s.getLast? ≠ some '/') (hne : s ≠ []) : bare (s ++ ['/']) = bare s := by
  obtain ⟨init, c, rfl⟩ := (List.eq_nil_or_concat' s).resolve_left hne
  have hc : c ≠ '/' := by simpa using hlast
  simp [bare, hc]

theorem bare_ne_nil (hne : s ≠ []) : bare s ≠ [] := by
  rw [bare]
  split
  · exact hne
  · next hall =>
    intro hnil
    rw [List.reverse_eq_nil_iff, List.dropWhile_eq_nil_iff] at hnil
    exact hall (by simpa using hnil)

/-- Up to a slash at its end a path is its own directory part. -/
theorem directoryPart_of_slash (hlast : s.getLast? = some '/') : directoryPart s = bare s := by
  obtain ⟨stem, rfl⟩ := List.getLast?_eq_some_iff.mp hlast
  simp [directoryPart]

/-- The pattern for the files below a directory is the line up to a slash, and two parts more. -/
theorem exists_stem (hplain : ¬ ".css".toList <:+ line.toList) (hne : line ≠ "") :
    ∃ stem, (PatternRule.standard.expand line).toList = stem ++ '/' :: "**/*.css".toList ∧
      bare (stem ++ ['/']) = bare line.toList ∧ ∀ c ∈ stem, c ∈ line.toList := by
  have hline : line.toList ≠ [] := by simpa using hne
  have hfile : ¬ PatternRule.standard.fileSuffix.toList.isSuffixOf line.toList = true := by
    rw [List.isSuffixOf_iff_suffix]
    exact hplain
  rw [PatternRule.expand, if_neg hfile]
  split
  · next hlast =>
    obtain ⟨stem, hstem⟩ := List.getLast?_eq_some_iff.mp hlast
    refine ⟨stem, ?_, by rw [hstem], fun c hc => by simp [hstem, hc]⟩
    rw [String.toList_append, hstem, List.append_assoc]
    rfl
  · next hlast =>
    refine ⟨line.toList, ?_, bare_slash hlast hline, fun c hc => hc⟩
    rw [String.toList_append, String.toList_append, List.append_assoc]
    rfl

/-- The path of the directory that a line names, as a search writes it. -/
def written (base : Path) (line : String) : String := seen base (String.ofList (bare line.toList))

/-- What the pattern of a directory finds. -/
theorem find_expanded (base : Path) (hplain : ¬ ".css".toList <:+ line.toList) (hne : line ≠ "")
    (hmagic : isMagic line = false) : find t base (PatternRule.standard.expand line) =
      (selectAll t base [.deep, stylesheets] [String.ofList (bare line.toList)]).map
        (·.filter (· ≠ "")) := by
  obtain ⟨stem, hpattern, hbare, hstem⟩ := exists_stem hplain hne
  generalize PatternRule.standard.expand line = pattern at hpattern
  have hglob : namesOf "**/*.css".toList = ["**", "*.css"] := by decide
  have hnomagic : ∀ c ∈ line.toList, isMagicChar c = false := by simpa [isMagic] using hmagic
  have hplainChars : ∀ c ∈ stem ++ ['/'], (!isMagicChar c) = true := by
    intro c hc
    rcases List.mem_append.mp hc with hc | hc
    · rw [hnomagic c (hstem c hc)]
      rfl
    · rw [List.mem_singleton.mp hc]
      rfl
  have hsplit : pattern.toList = (stem ++ ['/']) ++ "**/*.css".toList := by simp [hpattern]
  have hlead : leadOf pattern = String.ofList (bare line.toList) := by
    have htake : pattern.toList.takeWhile (!isMagicChar ·) = stem ++ ['/'] := by
      rw [hsplit, List.takeWhile_append_of_pos hplainChars]
      exact List.append_nil _
    rw [leadOf, htake, directoryPart_of_slash (by simp), hbare]
  have hplainNames : ∀ name ∈ namesOf stem, (!isMagic name) = true := by
    intro name hname
    have hfalse : isMagic name = false := by
      rw [isMagic, List.any_eq_false]
      intro c hc
      simp [hnomagic c (hstem c (mem_of_namesOf hname hc))]
    rw [hfalse]
    rfl
  have hparts : partsOf pattern = [.deep, stylesheets] := by
    have hnames : (slashParts pattern).filter (· ≠ "") = namesOf stem ++ ["**", "*.css"] := by
      rw [← hglob, ← namesOf_slash, ← hpattern]
      rfl
    have hlast : pattern.toList.getLast? ≠ some '/' := by
      rw [hpattern, List.getLast?_append_of_ne_nil _ (List.cons_ne_nil _ _)]
      decide
    rw [partsOf, hnames, List.dropWhile_append_of_pos hplainNames, if_neg hlast]
    decide
  have hmagicPattern : isMagic pattern = true := by
    rw [isMagic, hpattern, List.any_append]
    simp [isMagicChar]
  rw [find_of_magic hmagicPattern, hparts, hlead, if_neg (by decide)]

end Glob
end LintDebt
