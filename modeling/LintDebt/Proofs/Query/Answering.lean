import LintDebt.Proofs.FileTree.Shapes
import LintDebt.Proofs.Query.Restoring

/-! # Questions that are answered

A list that was moved out of sight once, with nothing at its hidden path, can be moved so again, as
long as only contents of files change. Then a question is answered whenever the linter answers, and
what the linter reads in every other file is what is there. -/

namespace LintDebt

open FileTree

namespace Query

variable {t t' : FileTree} {list hidden : Path} {directory : Location} {name : String} {n : Node}
  {octets : List UInt8} {config : Json.Fields} {files : List Path} {calls : List Call}
  {r : Except Failure (List Report)} {reports : List Report}

/-- The tree in which a linter is asked, with the list at its hidden path. -/
def aside (t : FileTree) (directory : Location) (name : String) (n : Node) : FileTree :=
  (t.erase (directory ++ [name])).put (directory ++ [name ++ hiddenSuffix]) n

/-- Holds for a list that is there and can be hidden where nothing is. -/
def Hideable (t : FileTree) (list : Path) : Prop :=
  t.existsAt list.text = .ok true ∧ ∃ hidden directory name n,
    Movable t list hidden directory name ∧ t.node? (directory ++ [name]) = some n ∧ n ≠ .directory ∧
      t.node? (directory ++ [name ++ hiddenSuffix]) = none

theorem Hideable.of_sameShape (h : Hideable t list) (hshape : SameShape t t') : Hideable t' list := by
  obtain ⟨hexists, hidden, directory, name, n, hmovable, hn, hdir, hnone⟩ := h
  refine ⟨by rw [← hshape.existsAt]; exact hexists, hidden, directory, name, ?_⟩
  have hmovable' := hmovable.of_sameWays hshape.sameWays
  have hnone' := hshape.node?_eq_none.mp hnone
  rcases hshape.node_cases (directory ++ [name]) with heq | ⟨old, new, hold, hnew⟩
  · exact ⟨n, hmovable', heq ▸ hn, hdir, hnone'⟩
  · exact ⟨.file new, hmovable', hnew, nofun, hnone'⟩

/-- The linter reads what is there in every file but the list. -/
theorem read_aside (hmovable : Movable t list hidden directory name) (ht : t.IsTree)
    (hnone : t.node? (directory ++ [name ++ hiddenSuffix]) = none)
    (hlist : ∃ octets, t.read list.text = .ok octets) {path : String}
    (hother : t.target? path ≠ t.target? list.text) (hread : t.read path = .ok octets) :
    (aside t directory name n).read path = .ok octets := by
  obtain ⟨old, hold⟩ := hlist
  have hs : directory ++ [name] ≠ [] := concat_ne_nil
  have hd : directory ++ [name ++ hiddenSuffix] ≠ [] := concat_ne_nil
  obtain ⟨hnull, l, hl⟩ := stat_eq_ok.mp (read_eq_ok.mp hread)
  obtain ⟨hcheck, hwalk, hnode⟩ := lookup_eq_ok.mp hl
  have htarget' : t.target? path = some l := by
    refine target?_of_seek (x := .found l) hnull ?_
    rw [seek_eq, hcheck]
    exact hwalk
  rw [htarget'] at hother
  have hls : l ≠ directory ++ [name] := by
    rintro rfl
    rw [hmovable.entry_list.target?_eq (by rw [hnode]; simp)] at hother
    exact hother rfl
  have hld : l ≠ directory ++ [name ++ hiddenSuffix] := by
    rintro rfl
    rw [hnode] at hnone
    cases hnone
  have hnode' : (aside t directory name n).node? l = some (.file octets) := by
    rw [aside, node?_put hd, if_neg hld, node?_erase hs, if_neg hls, hnode]
  refine read_eq_ok.mpr (stat_eq_ok.mpr ⟨hnull, l, lookup_eq_ok.mpr ⟨hcheck, ?_, hnode'⟩⟩)
  refine walk_of_erase hd _ _ _ ?_
  rw [aside, put_erase, erase_eq_self hd]
  · exact hmovable.entry_list.walk_erase ht hold (Ne.symm hother) hls hwalk
  · rw [node?_erase hs, if_neg (Ne.symm concat_ne_hidden), hnone]

/-- A list that can be hidden is hidden and found again. -/
theorem Asking.answered (h : Asking list config files t calls r t')
    (hhideable : files ≠ [] → Hideable t list)
    (hanswers : ∀ c ∈ calls, c.after = c.before ∧ ∃ reports, c.answer = .ok reports) :
    ∃ reports, r = .ok reports := by
  have hblame : ∀ c ∈ calls, ∃ reports, blameLinter c.answer = .ok reports := by
    intro c hc
    obtain ⟨reports, hreports⟩ := (hanswers c hc).2
    exact ⟨reports, by rw [hreports]; rfl⟩
  by_cases hfiles : files = []
  · subst hfiles
    exact ⟨[], h.of_nil.2.1⟩
  obtain ⟨hexists, hidden, directory, name, n, hmovable, hn, hdir, hnone⟩ := hhideable hfiles
  obtain ⟨t₁, haway₁, hback₁⟩ := hmovable.moves hn hdir (by rw [hnone]; simp)
  cases h with
  | idle => exact ⟨[], rfl⟩
  | refused _ e hbarred => exact absurd haway₁ (hbarred.not_away hexists hmovable.concealed)
  | «open» _ c | hidden _ c => exact hblame c (by simp)
  | stranded _ c _ hidden' _ hhidden haway e hback =>
    cases hmovable.concealed.symm.trans hhidden
    cases haway₁.symm.trans haway
    rw [(hanswers c (by simp)).1, hback₁] at hback
    cases hback

/-- What an answered question was, if nothing stood at the hidden path: it changed nothing, and the
linter read every other file as it is. -/
theorem Asking.seen (h : Asking list config files t calls (.ok reports) t') (ht : t.IsTree)
    (hread : t.read list.text = .ok octets) (hquiet : ∀ c ∈ calls, c.after = c.before)
    (hfree : ∀ hidden, hiddenPath list = .ok hidden → t.isPresent hidden.text = false) :
    t' = t ∧ (files = [] ∧ calls = [] ∧ reports = [] ∨ Hideable t list ∧ ∃ c, calls = [c] ∧
      c.config = config ∧ c.files = files.map Path.text ∧ c.answer = .ok reports ∧
      ∀ path old, t.target? path ≠ t.target? list.text → t.read path = .ok old →
        c.before.read path = .ok old) := by
  rcases h.movable ht hread hquiet with ⟨rfl, rfl, rfl⟩ |
    ⟨hcalls, hidden, directory, name, n, hmovable, hn, hdir, hover, rfl⟩
  · refine ⟨rfl, Or.inl ⟨rfl, rfl, ?_⟩⟩
    rcases h.answer with ⟨-, -, hreports, -⟩ | ⟨c, hc, -⟩
    · exact hreports
    · cases hc
  have hnone := hmovable.entry_hidden.isPresent_eq_false.mp (hfree hidden hmovable.concealed)
  have hexists : t.existsAt list.text = .ok true := by
    rw [existsAt, read_eq_ok.mp hread]
    rfl
  refine ⟨erase_eq_self concat_ne_nil hnone, Or.inr
    ⟨⟨hexists, hidden, directory, name, n, hmovable, hn, hdir, hnone⟩, ?_⟩⟩
  generalize t.erase (directory ++ [name ++ hiddenSuffix]) = t₂ at h
  cases h.toAnswered with
  | idle => exact absurd rfl hcalls
  | «open» _ c _ hno => rw [hexists] at hno; cases hno
  | hidden _ c hasked hidden' _ hhidden haway _ _ _ hanswer =>
    cases hmovable.concealed.symm.trans hhidden
    rw [hmovable.entry_list.rename hmovable.entry_hidden ne_hidden_name hn hdir hover] at haway
    refine ⟨c, rfl, hasked.1, hasked.2, hanswer, fun path old hother hold => ?_⟩
    rw [← Except.ok.inj haway]
    exact read_aside hmovable ht hnone ⟨octets, hread⟩ hother hold

end Query
end LintDebt
