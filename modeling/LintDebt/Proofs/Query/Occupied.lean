import LintDebt.Proofs.Query.Keeping

/-! # When something stands at the hidden path

Hiding the list takes the place of whatever stood at its hidden path, unless that is a directory. So
the list comes back only if its own path does not lead through what stood there, and what stood
there is gone in any case. `Clear` is that condition, and a list that is a file comes back exactly
if it holds. -/

namespace LintDebt

open FileTree

namespace Query

variable {t t' t₁ : FileTree} {list hidden : Path} {directory : Location} {name : String}
  {octets : List UInt8}

/-- Holds if the list is found also without what stands at its hidden path. -/
def Clear (t : FileTree) (list hidden : Path) : Prop :=
  (t.vacate hidden.text).lstat list.text = t.lstat list.text

instance : Decidable (Clear t list hidden) := inferInstanceAs (Decidable (_ = _))

/-- A list that is a file, its hidden path, and the tree with the list moved there. -/
structure Moved (t t₁ : FileTree) (list hidden : Path) (octets : List UInt8)
    (directory : Location) (name : String) : Prop where
  tree : t.IsTree
  concealed : hiddenPath list = .ok hidden
  entry : t.Entry list.text directory name
  entry' : t.Entry hidden.text directory (name ++ hiddenSuffix)
  node : t.node? (directory ++ [name]) = some (.file octets)
  free : t.node? (directory ++ [name ++ hiddenSuffix]) ≠ some .directory
  eq : t₁ = (t.erase (directory ++ [name])).put (directory ++ [name ++ hiddenSuffix]) (.file octets)

theorem exists_moved (ht : t.IsTree) (hlist : t.lstat list.text = .ok (.file octets))
    (hhidden : hiddenPath list = .ok hidden) (haway : t.rename list.text hidden.text = .ok t₁) :
    ∃ directory name, Moved t t₁ list hidden octets directory name := by
  obtain ⟨directory, name, hentry, hn⟩ := ht.exists_entry hlist nofun
  have hentry' := entry_hidden_of_rename hentry hhidden haway
  obtain ⟨hover, heq⟩ := eq_of_rename_hidden hentry hhidden hn nofun haway
  exact ⟨directory, name, ht, hhidden, hentry, hentry', hn, hover, heq⟩

namespace Moved

variable (h : Moved t t₁ list hidden octets directory name)
include h

theorem vacate_eq : t.vacate hidden.text = t.erase (directory ++ [name ++ hiddenSuffix]) :=
  h.entry'.vacate_eq

/-- On a clear way the list is at its place when nothing stands at its hidden path any more. -/
theorem inPlace (hclear : Clear t list hidden) :
    InPlace (t.vacate hidden.text) list hidden octets := by
  have hlist : (t.vacate hidden.text).lstat list.text = .ok (.file octets) := by
    rw [show _ = _ from hclear, h.entry.lstat_eq_ok, h.node]
  rw [h.vacate_eq] at hlist ⊢
  have ht := h.tree.erase concat_ne_nil h.free
  obtain ⟨directory', name', hentry, hn⟩ := ht.exists_entry hlist nofun
  obtain ⟨rfl, rfl⟩ := h.entry.unique (hentry.of_erase concat_ne_nil)
  have hentry' := hidden_of_entry h.entry' h.concealed hentry
  exact (inPlace_iff hentry hentry').mpr ⟨ht, hn, by rw [node?_erase concat_ne_nil, if_pos rfl]⟩

/-- The tree with the list moved away is the same whether or not something stood there. -/
theorem rename_vacate (hclear : Clear t list hidden) :
    (t.vacate hidden.text).rename list.text hidden.text = .ok t₁ := by
  have hplace := h.inPlace hclear
  obtain ⟨directory', name', hentry, hn⟩ := hplace.tree.exists_entry hplace.list nofun
  rw [h.vacate_eq] at hentry hn ⊢
  obtain ⟨rfl, rfl⟩ := h.entry.unique (hentry.of_erase concat_ne_nil)
  have hvacant : (t.erase (directory' ++ [name' ++ hiddenSuffix])).node?
      (directory' ++ [name' ++ hiddenSuffix]) = none := by
    rw [node?_erase concat_ne_nil, if_pos rfl]
  rw [hentry.rename (hidden_of_entry h.entry' h.concealed hentry) ne_hidden_name hn nofun
    (by rw [hvacant]; simp), h.eq]
  refine congrArg Except.ok (ext_nodes (fun k => ?_) rfl)
  simp only [nodes_put, nodes_erase]
  split
  · rfl
  · rfl

/-- On a clear way the list comes back. -/
theorem back (hclear : Clear t list hidden) :
    t₁.rename hidden.text list.text = .ok (t.vacate hidden.text) ∧
      SameWays t₁ (t.vacate hidden.text) := by
  have hplace := h.inPlace hclear
  obtain ⟨-, hways⟩ := hplace.outOfSight h.concealed (h.rename_vacate hclear)
  refine ⟨?_, hways.symm⟩
  obtain ⟨directory', name', hentry, -⟩ := hplace.tree.exists_entry hplace.list nofun
  have hentry₁ := hentry.of_sameWays hways
  rw [h.vacate_eq] at hentry
  obtain ⟨rfl, rfl⟩ := h.entry.unique (hentry.of_erase concat_ne_nil)
  have hd : t₁.node? (directory' ++ [name' ++ hiddenSuffix]) = some (.file octets) := by
    rw [h.eq, node?_put concat_ne_nil, if_pos rfl]
  have hs : t₁.node? (directory' ++ [name']) = none := by
    rw [h.eq, node?_put concat_ne_nil, if_neg concat_ne_hidden, node?_erase concat_ne_nil,
      if_pos rfl]
  rw [(hidden_of_entry h.entry' h.concealed hentry₁).rename hentry₁ ne_hidden_name.symm hd nofun
    (by rw [hs]; simp), h.eq, put_erase_put_erase concat_ne_nil concat_ne_hidden h.node, h.vacate_eq]

/-- Else it cannot be found any more. -/
theorem lost (hclear : ¬ Clear t list hidden) (directory' : Location) (name' : String) :
    ¬ t₁.Entry list.text directory' name' := by
  intro hentry
  refine hclear ?_
  have hd : t₁.node? (directory ++ [name ++ hiddenSuffix]) = some (.file octets) := by
    rw [h.eq, node?_put concat_ne_nil, if_pos rfl]
  have hboth : t₁.erase (directory ++ [name ++ hiddenSuffix]) =
      (t.erase (directory ++ [name ++ hiddenSuffix])).erase (directory ++ [name]) := by
    rw [h.eq]
    refine ext_nodes (fun k => ?_) rfl
    simp only [nodes_put, nodes_erase]
    split
    · simp
    · rfl
  have herased := hentry.erase_file concat_ne_nil hd
  rw [hboth] at herased
  replace herased := herased.of_erase concat_ne_nil
  obtain ⟨rfl, rfl⟩ := h.entry.unique (herased.of_erase concat_ne_nil)
  rw [Clear, h.vacate_eq, h.entry.lstat, h.node, herased.lstat, node?_erase concat_ne_nil,
    if_neg concat_ne_hidden, h.node]

/-- When the list cannot be moved back, its path leads to nothing. -/
theorem absent (hclear : ¬ Clear t list hidden) : t₁.isPresent list.text = false := by
  have ht₁ : t₁.IsTree := by
    have hself : directory ≠ directory ++ [name] := by simp
    rw [h.eq]
    refine (h.tree.erase concat_ne_nil (by rw [h.node]; simp)).put ?_ ?_
    · rw [node?_erase concat_ne_nil, if_neg hself, h.entry.directory_eq]
    · rw [node?_erase concat_ne_nil, if_neg concat_ne_hidden.symm]
      exact h.free
  rw [← Bool.not_eq_true]
  intro hp
  obtain ⟨directory', hentry⟩ := h.entry.of_present ht₁ hp
  exact h.lost hclear directory' name hentry

/-- And the tool reports that. -/
theorem refusal_back {e : OsError}
    (he : t₁.rename hidden.text list.text = .error e) :
    ∃ e', TextFile.refusal (fun f => .unmovable f hidden.text list.text) e = .tool e' := by
  rw [FileTree.rename, route_of_eq_ok.mpr ⟨h.entry.null, rfl⟩,
    route_of_eq_ok.mpr ⟨h.entry'.null, rfl⟩] at he
  simp only [bind, Except.bind, refusing] at he
  cases hon : t₁.renameOn (.parse hidden.text) (.parse list.text) with
  | ok t => rw [hon] at he; cases he
  | error code => rw [hon] at he; cases he; exact ⟨_, rfl⟩

end Moved

/-- The first question about a list that is a file, when the linter changes nothing. -/
theorem Asking.first {config : Json.Fields} {files : List Path} {calls : List Call}
    {r : Except Failure (List Report)} (hask : Asking list config files t calls r t')
    (ht : t.IsTree) (hlist : t.lstat list.text = .ok (.file octets))
    (hhidden : hiddenPath list = .ok hidden) (hquiet : ∀ c ∈ calls, c.after = c.before) :
    calls = [] ∧ t' = t ∨ ∃ c, calls = [c] ∧
      (Clear t list hidden → t' = t.vacate hidden.text ∧ InPlace t' list hidden octets ∧
        SameWays c.after t') ∧
      (¬ Clear t list hidden → (∃ e, r = .error (.tool e)) ∧ t'.isPresent list.text = false) := by
  cases hask with
  | idle hfiles => exact Or.inl ⟨rfl, rfl⟩
  | refused hfiles e => exact Or.inl ⟨rfl, rfl⟩
  | «open» hfiles c hasked hno hbefore =>
    obtain ⟨directory, name, hentry, hn⟩ := ht.exists_entry hlist nofun
    rw [hentry.existsAt hn] at hno
    cases hno
  | hidden hfiles c hasked hidden' hyes hhidden' haway t'' hback =>
    rw [hhidden] at hhidden'
    cases hhidden'
    obtain ⟨directory, name, hmoved⟩ := exists_moved ht hlist hhidden haway
    have hafter := hquiet c (by simp)
    rw [hafter] at hback
    refine Or.inr ⟨c, rfl, fun hclear => ?_, fun hclear => ?_⟩
    · obtain ⟨hback', hways⟩ := hmoved.back hclear
      rw [hback'] at hback
      cases hback
      rw [hafter]
      exact ⟨rfl, hmoved.inPlace hclear, hways⟩
    · obtain ⟨_, _, _, _, -, hentry, -⟩ := exists_entries_of_rename hback
        (unslashed_hiddenPath hhidden) hmoved.entry.unslashed
      exact absurd hentry (hmoved.lost hclear _ _)
  | stranded hfiles c hasked hidden' hyes hhidden' haway e hback =>
    rw [hhidden] at hhidden'
    cases hhidden'
    obtain ⟨directory, name, hmoved⟩ := exists_moved ht hlist hhidden haway
    have hafter := hquiet c (by simp)
    rw [hafter] at hback ⊢
    refine Or.inr ⟨c, rfl, fun hclear => ?_, fun hclear => ?_⟩
    · rw [(hmoved.back hclear).1] at hback
      cases hback
    · obtain ⟨e', he'⟩ := hmoved.refusal_back hback
      exact ⟨⟨e', by rw [he']⟩, hmoved.absent hclear⟩

/-- A list that is a file can be looked for. -/
theorem InPlace.existsAt (h : InPlace t list hidden octets) : t.existsAt list.text = .ok true := by
  obtain ⟨directory, name, hentry, hn⟩ := h.tree.exists_entry h.list nofun
  exact hentry.existsAt hn

/-- With nothing at its hidden path, the list leaves no trace there. -/
theorem InPlace.restored (h : InPlace t list hidden octets) (hhidden : hiddenPath list = .ok hidden)
    (haway : t.rename list.text hidden.text = .ok t₁) : t₁.rename hidden.text list.text = .ok t := by
  obtain ⟨directory, name, hmoved⟩ := exists_moved h.tree h.list hhidden haway
  have hvacate : t.vacate hidden.text = t := by
    rw [hmoved.vacate_eq, erase_eq_self concat_ne_nil
      (hmoved.entry'.isPresent_eq_false.mp h.hidden)]
  have hclear : Clear t list hidden := by
    unfold Clear
    rw [hvacate]
  rw [(hmoved.back hclear).1, hvacate]

end Query
end LintDebt
