import LintDebt.Glob.Search
import LintDebt.Proofs.Distinct
import LintDebt.Proofs.Except

/-! # From what is found to the files

What a pattern finds is resolved, and of that the files are kept, each once and in the order of
their names. -/

namespace LintDebt

namespace Path

variable {p q r : Path}

instance : Std.TransCmp order :=
  inferInstanceAs (Std.TransCmp (compareLex (compareOn _) (compareOn _)))

theorem width_inj {root root' : Root} : root.width = root'.width ↔ root = root' := by
  cases root <;> cases root' <;> decide

/-- Two paths are equal in the order only if they are the same. -/
theorem eq_of_order (h : p.order q = .eq) : p = q := by
  obtain ⟨hwidth, hnames⟩ := compareLex_eq_eq.mp h
  have hroot : p.root = q.root := width_inj.mp (Nat.compare_eq_eq.mp hwidth)
  obtain ⟨proot, pnames⟩ := p
  obtain ⟨qroot, qnames⟩ := q
  exact congrArg₂ Path.mk hroot (Std.LawfulEqCmp.eq_of_compare hnames)

/-- Paths that begin with the same slashes are in the order of their names. -/
theorem order_of_root (h : p.root = q.root) : p.order q = compare p.names q.names := by
  rw [order, compareLex, compareOn, h, Nat.compare_eq_eq.mpr rfl]
  rfl

theorem le_trans (hpq : p.le q = true) (hqr : q.le r = true) : p.le r = true :=
  Std.TransCmp.isLE_trans hpq hqr

theorem le_total (p q : Path) : (p.le q || q.le p) = true := by
  have hswap : q.order p = (p.order q).swap := Std.OrientedCmp.eq_swap
  rw [le, le, hswap]
  cases p.order q <;> rfl

/-- Of two paths in order the first is less, unless they are the same. -/
theorem order_of_le (hle : p.le q = true) (hne : p ≠ q) : p.order q = .lt := by
  rw [le] at hle
  cases h : p.order q with
  | lt => rfl
  | eq => exact absurd (eq_of_order h) hne
  | gt => rw [h] at hle; cases hle

end Path

namespace Glob

variable {t : FileTree} {base p : Path} {pattern : String} {files : List Path} {found : List String}

theorem resolvePattern_eq_ok : resolvePattern t base pattern = .ok files ↔
    ∃ found resolved, find t base pattern = .ok found ∧
      List.Forall₂ (fun text p => t.resolve (base.join (.parse text)) = .ok p) found resolved ∧
      (∀ p ∈ resolved, ∃ known, t.isFile p.text = .ok known) ∧
      ((resolved.eraseDups.filter fun p => (t.isFile p.text).toOption = some true).mergeSort Path.le) = files := by
  rw [resolvePattern, bind_eq_ok]
  simp only [bind_eq_ok, mapM_eq_ok, mapError_eq_ok, filterM_eq_ok, List.mem_eraseDups,
    toOption_mapError]
  constructor
  · rintro ⟨found, hfound, resolved, hresolved, kept, ⟨htests, rfl⟩, h⟩
    exact ⟨found, resolved, hfound, hresolved, htests, Except.ok.inj h⟩
  · rintro ⟨found, resolved, hfound, hresolved, htests, rfl⟩
    exact ⟨found, hfound, resolved, hresolved, _, ⟨htests, rfl⟩, rfl⟩

/-- A pattern's files are those to which what it finds resolves, and all of that was looked at. -/
theorem mem_of_resolvePattern (h : resolvePattern t base pattern = .ok files) :
    ∃ found, find t base pattern = .ok found ∧
      (∀ text ∈ found, ∃ p, t.resolve (base.join (.parse text)) = .ok p ∧
        ∃ known, t.isFile p.text = .ok known) ∧
      ∀ p, p ∈ files ↔ ∃ text ∈ found, t.resolve (base.join (.parse text)) = .ok p ∧
        t.isFile p.text = .ok true := by
  obtain ⟨found, resolved, hfound, hresolved, htests, rfl⟩ := resolvePattern_eq_ok.mp h
  have hmem := mem_of_mapM (mapM_eq_ok.mpr hresolved)
  refine ⟨found, hfound, fun text htext => ?_, fun p => ?_⟩
  · obtain ⟨p, hp⟩ := exists_of_mapM (mapM_eq_ok.mpr hresolved) htext
    exact ⟨p, hp, htests p ((hmem p).mpr ⟨text, htext, hp⟩)⟩
  rw [List.mem_mergeSort, List.mem_filter, List.mem_eraseDups, decide_eq_true_eq, ← Option.mem_def,
    mem_toOption, hmem]
  constructor
  · rintro ⟨⟨text, htext, hp⟩, hfile⟩
    exact ⟨text, htext, hp, hfile⟩
  · rintro ⟨text, htext, hp, hfile⟩
    exact ⟨⟨text, htext, hp⟩, hfile⟩

/-- A pattern has files, be they none, if all that it finds can be resolved and looked at. -/
theorem exists_resolvePattern (hfound : find t base pattern = .ok found)
    (h : ∀ text ∈ found, ∃ p, t.resolve (base.join (.parse text)) = .ok p ∧
      ∃ known, t.isFile p.text = .ok known) :
    ∃ files, resolvePattern t base pattern = .ok files := by
  obtain ⟨resolved, hresolved⟩ := exists_mapM fun text htext => (h text htext).imp fun _ hp => hp.1
  refine ⟨_, resolvePattern_eq_ok.mpr ⟨found, resolved, hfound, mapM_eq_ok.mp hresolved, ?_, rfl⟩⟩
  intro p hp
  obtain ⟨text, htext, hresolve⟩ := (mem_of_mapM hresolved p).mp hp
  obtain ⟨p', hp', hknown⟩ := h text htext
  obtain rfl : p' = p := Except.ok.inj (hp'.symm.trans hresolve)
  exact hknown

/-- The files come in increasing order, each once. -/
theorem increasing_of_resolvePattern (h : resolvePattern t base pattern = .ok files) :
    files.Pairwise fun p q => p.order q = .lt := by
  obtain ⟨found, resolved, -, -, -, rfl⟩ := resolvePattern_eq_ok.mp h
  have hsorted := @List.pairwise_mergeSort _ Path.le (fun _ _ _ => Path.le_trans) Path.le_total
    (resolved.eraseDups.filter fun p => (t.isFile p.text).toOption = some true)
  have hdistinct : ((resolved.eraseDups.filter fun p => (t.isFile p.text).toOption = some true).mergeSort
      Path.le).Nodup :=
    (List.mergeSort_perm _ _).nodup_iff.mpr ((nodup_eraseDups resolved).filter _)
  exact (hsorted.and hdistinct).imp fun hpq => Path.order_of_le hpq.1 hpq.2

/-- Absolute files come in the order of their names. -/
theorem ordered_of_resolvePattern (h : resolvePattern t base pattern = .ok files)
    (hroot : ∀ p ∈ files, p.root = .absolute) :
    files.Pairwise fun p q => compare p.names q.names = .lt :=
  (increasing_of_resolvePattern h).imp_of_mem fun hp hq hpq =>
    (Path.order_of_root ((hroot _ hp).trans (hroot _ hq).symm)).symm.trans hpq

end Glob
end LintDebt
