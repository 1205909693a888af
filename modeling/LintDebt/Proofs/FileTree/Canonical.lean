import LintDebt.FileTree.Canonical
import LintDebt.Linter.Basic
import LintDebt.Proofs.FileTree.EntryPaths

/-! # Canonical paths where the ways are the same

The canonical path of a path depends on the directories and the links of a tree, and on where
relative paths start, but on no file. So a report is about the same path before and after a file
was moved, created or written. -/

namespace LintDebt

namespace FileTree

variable {t t' : FileTree}

theorem SameWays.lstat_link (h : SameWays t t') {path target : String}
    (hl : t.lstat path = .ok (.link target)) : t'.lstat path = .ok (.link target) := by
  obtain ⟨hnull, l, hlookup⟩ := lstat_eq_ok.mp hl
  obtain ⟨hcheck, hwalk, hn⟩ := lookup_eq_ok.mp hlookup
  have hn' : t'.node? l = some (.link target) := h.node?_eq hn rfl
  have hseek : t.seek false (.parse path) = .ok (.found l) := by
    rw [seek_eq, hcheck]
    exact hwalk
  have hseek' := h.seek_found hseek (by rw [Spot.place, hn']; simp)
  refine lstat_eq_ok.mpr ⟨hnull, l, ?_⟩
  rw [lookup, hseek']
  simp only [bind, Except.bind, Spot.place, hn']

/-- A path that leads through too many links does so wherever the ways are the same. -/
theorem SameWays.stat_tooManyLinks (h : SameWays t t') {path : String} {p : String} {o : Option String}
    (hs : t.stat path = .error (.refused .tooManyLinks p o)) :
    t'.stat path = .error (.refused .tooManyLinks p o) := by
  rw [stat] at hs ⊢
  rcases hr : Route.of path with e | r
  · rw [hr] at hs
    exact hs
  rw [hr] at hs
  simp only [bind, Except.bind, lookup] at hs ⊢
  have hend := h.seek true r
  revert hs hend
  generalize t.seek true r = x
  generalize t'.seek true r = y
  intro hs hend
  cases x with
  | ok x =>
    cases x with
    | vacant d name => simp [refusing] at hs
    | found l => cases hn : t.node? l <;> simp [refusing, hn, pure, Except.pure] at hs
  | error e =>
    cases y with
    | ok y => cases hend
    | error e' =>
      obtain ⟨rfl, rfl, rfl⟩ : e = .tooManyLinks ∧ path = p ∧ none = o := by
        simpa [refusing] using hs
      rcases hend with rfl | ⟨hno, -⟩
      · exact hs
      · simp at hno

theorem SameWays.climb (h : SameWays t t') (onLink : Links → Path → List String → Climb) :
    ∀ names links path, t.climb onLink links path names = t'.climb onLink links path names := by
  intro names
  induction names with
  | nil => exact fun _ _ => rfl
  | cons name rest ih =>
    intro links path
    rw [FileTree.climb, FileTree.climb]
    split
    · exact ih _ _
    split
    · exact ih _ _
    generalize ({ path with names := path.names ++ [name] } : Path) = next
    simp only
    split
    · next target hl =>
      rw [h.lstat_link hl]
      simp only [ih]
    · next hno =>
      have hno' : ∀ target, t'.lstat next.text ≠ .ok (.link target) :=
        fun target hl => hno target (h.symm.lstat_link hl)
      rw [ih]
      split
      · next target hl => exact absurd hl (hno' target)
      · rfl

theorem SameWays.climbWithin (h : SameWays t t') :
    ∀ depth links path names,
      t.climbWithin depth links path names = t'.climbWithin depth links path names := by
  intro depth
  induction depth with
  | zero => exact fun links path names => h.climb _ names links path
  | succ depth ih =>
    intro links path names
    have hsame : t.climbWithin depth = t'.climbWithin depth := by
      funext links path names
      exact ih links path names
    rw [FileTree.climbWithin, FileTree.climbWithin, hsame]
    exact h.climb _ names links path

theorem SameWays.ascend (h : SameWays t t') (p : Path) : t.ascend p = t'.ascend p :=
  h.climbWithin depthLimit [] p.origin p.names

theorem SameWays.absolute (h : SameWays t t') (p : Path) : t.absolute p = t'.absolute p := by
  rw [FileTree.absolute, FileTree.absolute, h.here]

theorem SameWays.resolve (h : SameWays t t') (p : Path) : t.resolve p = t'.resolve p := by
  rw [FileTree.resolve, FileTree.resolve, h.ascend]
  dsimp only
  rw [h.absolute]
  split
  · rfl
  split
  · rfl
  generalize (t'.absolute (t'.ascend p).path).text = path
  split
  · next hs => rw [h.stat_tooManyLinks hs]
  · next hno =>
    split
    · next p o hs => exact absurd (h.symm.stat_tooManyLinks hs) (hno p o)
    · rfl

end FileTree

/-- A report is about the same path wherever the ways are the same. -/
theorem FileTree.SameWays.sourcePath {t t' : FileTree} (h : FileTree.SameWays t t') (base : Path)
    (source : Text.Units) : sourcePath t base source = sourcePath t' base source := by
  have hspelled : unspelled? t base source = unspelled? t' base source := by
    simp only [unspelled?, h.ascend]
  simp only [LintDebt.sourcePath, hspelled, h.resolve]

end LintDebt
