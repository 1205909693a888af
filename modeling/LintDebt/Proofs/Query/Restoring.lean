import LintDebt.Proofs.Query.Keeping

/-! # Lists that come back

A question that was answered found the list again, whatever kind of entry the list is. So the linter
was asked in a tree without what stood at the hidden path, but for the list itself, and that tree is
what is left. -/

namespace LintDebt

open FileTree

namespace FileTree

variable {t : FileTree} {path : String} {directory : Location} {name : String}
  {octets : List UInt8}

/-- A slash at the end never leads to a file. -/
theorem IsTree.unslashed_of_read (ht : t.IsTree) (h : t.read path = .ok octets) :
    (Route.parse path).slashed = false := by
  obtain ⟨-, l, hl⟩ := stat_eq_ok.mp (read_eq_ok.mp h)
  obtain ⟨-, hwalk, hn⟩ := lookup_eq_ok.mp hl
  rw [← Bool.not_eq_true]
  intro hslash
  rw [Route.steps, if_pos hslash] at hwalk
  obtain ⟨d, k, -, -, hd, hdir⟩ := walk_split _ _ _ (List.cons_ne_nil "." []) hwalk
  rw [ht.walk_special (hdir ht ht.start) (fun h => h.ne_dot rfl) hd] at hn
  cases hn

/-- The entry of a path that leads to a file is that file, or a link that leads to it. -/
theorem Entry.leads (h : t.Entry path directory name) (hread : t.read path = .ok octets) :
    ∃ n l, t.node? (directory ++ [name]) = some n ∧ n ≠ .directory ∧ t.target? path = some l ∧
      t.node? l = some (.file octets) ∧ ∀ target, n = .link target → ∃ k,
        t.walk true k (if (Route.parse target).absolute then [] else directory)
          (Route.parse target).steps = .ok (.found l) := by
  obtain ⟨hnull, l, hl⟩ := stat_eq_ok.mp (read_eq_ok.mp hread)
  obtain ⟨hcheck, hwalk, hfile⟩ := lookup_eq_ok.mp hl
  have htarget : t.target? path = some l := by
    refine target?_of_seek (x := .found l) hnull ?_
    rw [seek_eq, hcheck]
    exact hwalk
  obtain ⟨-, hparent, hdir, hlast, hdot, hup⟩ := splitLast_eq_ok.mp h.split
  have hsteps : (Route.parse path).steps = (Route.parse path).names.dropLast ++ [name] := by
    rw [Route.steps, h.unslashed, ← eq_dropLast_append hlast]
    rfl
  rw [hsteps] at hwalk
  obtain ⟨d, k, -, hd, hlast, -⟩ := walk_split _ _ _ (List.cons_ne_nil name []) hwalk
  cases walk_unique hd hparent
  rcases walk_ordinary_cases ⟨hdot, hup, h.size_le⟩ hlast with
    ⟨hn, hlast⟩ | ⟨⟨old, hn⟩, -, rfl⟩ | ⟨target, j, hn, -, hlast⟩
  · rw [walk_nil] at hlast
    cases hlast
    cases hn.symm.trans hfile
  · exact ⟨_, _, hn, by simp, htarget, hfile, by simp⟩
  · rw [List.append_nil] at hlast
    refine ⟨_, l, hn, by simp, htarget, hfile, ?_⟩
    rintro target ⟨⟩
    exact ⟨j, hlast⟩

/-- The way to anything else does not lead through such an entry: that ends at the file. -/
theorem Entry.walk_erase (h : t.Entry path directory name) (ht : t.IsTree)
    (hread : t.read path = .ok octets) {k : Nat} {p l : Location} {names : List String}
    (hother : t.target? path ≠ some l) (hl : l ≠ directory ++ [name])
    (hwalk : t.walk true k p names = .ok (.found l)) :
    (t.erase (directory ++ [name])).walk true k p names = .ok (.found l) := by
  obtain ⟨n, file, hn, hdir, htarget, hfile, hlink⟩ := h.leads hread
  rcases walk_erase_or concat_ne_nil (by rw [hn]; simpa using hdir) k p names hwalk with
    hwalk | hwalk | ⟨target, j, rest, hthrough, -, hwalk⟩
  · exact hwalk
  · exact absurd hwalk hl
  · cases hn.symm.trans hthrough
    obtain ⟨j', hto⟩ := hlink target rfl
    rw [List.dropLast_concat] at hwalk
    rcases rest with _ | ⟨first, rest⟩
    · rw [List.append_nil] at hwalk
      cases walk_unique hwalk hto
      exact absurd htarget hother
    · refine absurd hwalk (ht.walk_past_file ?_ hto hfile (List.cons_ne_nil first rest) _)
      split
      · rfl
      · exact h.directory_eq

theorem Entry.leadsToFile (h : t.Entry path directory name) (hread : t.read path = .ok octets) :
    ∃ n, t.node? (directory ++ [name]) = some n ∧ n ≠ .directory ∧ t.LeadsToFile directory n := by
  obtain ⟨n, l, hn, hdir, -, hfile, hlink⟩ := h.leads hread
  refine ⟨n, hn, hdir, fun target heq => ?_⟩
  obtain ⟨k, hwalk⟩ := hlink target heq
  exact ⟨k, l, octets, hwalk, hfile⟩

end FileTree

namespace Query

variable {t t' t₁ : FileTree} {list hidden : Path} {octets : List UInt8}

/-- The list's entry is found also while neither it nor anything at its hidden path is there, so
that the list can be moved to and fro. -/
structure Movable (t : FileTree) (list hidden : Path) (directory : Location) (name : String) :
    Prop where
  concealed : hiddenPath list = .ok hidden
  entry : ((t.erase (directory ++ [name])).erase (directory ++ [name ++ hiddenSuffix])).Entry
    list.text directory name
  entry' : ((t.erase (directory ++ [name])).erase (directory ++ [name ++ hiddenSuffix])).Entry
    hidden.text directory (name ++ hiddenSuffix)

namespace Movable

variable {directory : Location} {name : String} {n : Node}

theorem entry_list (h : Movable t list hidden directory name) : t.Entry list.text directory name :=
  (h.entry.of_erase concat_ne_nil).of_erase concat_ne_nil

theorem entry_hidden (h : Movable t list hidden directory name) :
    t.Entry hidden.text directory (name ++ hiddenSuffix) :=
  (h.entry'.of_erase concat_ne_nil).of_erase concat_ne_nil

theorem of_sameWays (h : Movable t list hidden directory name) (hways : SameWays t t') :
    Movable t' list hidden directory name := by
  have hways' := (hways.erase (l := directory ++ [name]) concat_ne_nil).erase
    (l := directory ++ [name ++ hiddenSuffix]) concat_ne_nil
  exact ⟨h.concealed, h.entry.of_sameWays hways', h.entry'.of_sameWays hways'⟩

/-- The tree without what stands at the hidden path. -/
theorem erase (h : Movable t list hidden directory name) :
    Movable (t.erase (directory ++ [name ++ hiddenSuffix])) list hidden directory name := by
  refine ⟨h.concealed, ?_, ?_⟩
  · rw [erase_erase_comm, erase_erase_self, erase_erase_comm]
    exact h.entry
  · rw [erase_erase_comm, erase_erase_self, erase_erase_comm]
    exact h.entry'

/-- The list comes back to its place, and nothing is left at its hidden path. -/
theorem moves (h : Movable t list hidden directory name) (hn : t.node? (directory ++ [name]) = some n)
    (hdir : n ≠ .directory)
    (hover : t.node? (directory ++ [name ++ hiddenSuffix]) ≠ some .directory) :
    ∃ t₁, t.rename list.text hidden.text = .ok t₁ ∧ t₁.rename hidden.text list.text =
      .ok (t.erase (directory ++ [name ++ hiddenSuffix])) := by
  have hs : directory ++ [name] ≠ [] := concat_ne_nil
  have hd : directory ++ [name ++ hiddenSuffix] ≠ [] := concat_ne_nil
  refine ⟨_, h.entry_list.rename h.entry_hidden ne_hidden_name hn hdir hover, ?_⟩
  have hentry := h.entry
  have hentry' := h.entry'
  rw [← put_erase (n := n)] at hentry hentry'
  have hvacant : ((t.erase (directory ++ [name])).put (directory ++ [name ++ hiddenSuffix]) n).node?
      (directory ++ [name]) = none := by
    rw [node?_put hd, if_neg concat_ne_hidden, node?_erase hs, if_pos rfl]
  rw [(hentry'.of_erase concat_ne_nil).rename (hentry.of_erase concat_ne_nil) ne_hidden_name.symm
    (by rw [node?_put hd, if_pos rfl]) hdir (by rw [hvacant]; simp),
    put_erase_put_erase hs concat_ne_hidden hn]

end Movable

/-- A list that leads to a file and was moved away and back can be moved so. -/
theorem exists_movable (ht : t.IsTree) (hread : t.read list.text = .ok octets)
    (hhidden : hiddenPath list = .ok hidden) (haway : t.rename list.text hidden.text = .ok t₁)
    (hback : t₁.rename hidden.text list.text = .ok t') :
    ∃ directory name n, Movable t list hidden directory name ∧
      t.node? (directory ++ [name]) = some n ∧ n ≠ .directory ∧
      t.node? (directory ++ [name ++ hiddenSuffix]) ≠ some .directory := by
  have hslash := ht.unslashed_of_read hread
  have hslash' := unslashed_hiddenPath hhidden
  obtain ⟨directory, name, _, _, hentry, -, -⟩ := exists_entries_of_rename haway hslash hslash'
  have hentry' := entry_hidden_of_rename hentry hhidden haway
  obtain ⟨n, hn, hdir, hfile⟩ := hentry.leadsToFile hread
  obtain ⟨hover, rfl⟩ := eq_of_rename_hidden hentry hhidden hn hdir haway
  have hs : directory ++ [name] ≠ [] := concat_ne_nil
  have hd : directory ++ [name ++ hiddenSuffix] ≠ [] := concat_ne_nil
  -- The way back starts in the same directory.
  obtain ⟨directory₁, _, _, _, hentry₁, -, -⟩ := exists_entries_of_rename hback hslash' hslash
  obtain ⟨rfl, hlist₁⟩ := entry_of_hidden hentry hhidden hentry₁
  have hdir₁ := hlist₁.directory_eq
  have hne : directory₁ ≠ directory ++ [name ++ hiddenSuffix] := by
    rintro rfl
    rw [node?_put hd, if_pos rfl] at hdir₁
    exact hdir (Option.some.inj hdir₁)
  have hne' : directory₁ ≠ directory ++ [name] := by
    rintro rfl
    rw [node?_put hd, if_neg hne, node?_erase hs, if_pos rfl] at hdir₁
    cases hdir₁
  rw [node?_put hd, if_neg hne, node?_erase hs, if_neg hne'] at hdir₁
  obtain ⟨hcheck, hwalk₁, -, hlast⟩ := splitLast_eq_ok.mp hlist₁.split
  obtain ⟨hwalk, hwalk'⟩ :=
    walk_back ht hentry.directory_eq hdir hfile hdir₁ hne _ _ _ hwalk₁
  cases walk_unique hwalk' (splitLast_eq_ok.mp hentry.split).2.1
  have hlist : ((t.erase (directory ++ [name])).erase (directory ++ [name ++ hiddenSuffix])).Entry
      list.text directory name := by
    refine ⟨hentry.null, splitLast_eq_ok.mpr ⟨hcheck, hwalk, ?_, hlast⟩, hentry.unslashed,
      hentry.size_le⟩
    rw [node?_erase hd, if_neg hne, node?_erase hs, if_neg hne', hdir₁]
  exact ⟨directory, name, n, ⟨hhidden, hlist, hidden_of_entry hentry' hhidden hlist⟩, hn, hdir, hover⟩

/-- A list that leads to a file and was moved away and back leaves nothing at its hidden path. -/
theorem eq_vacate_of_moves (ht : t.IsTree) (hread : t.read list.text = .ok octets)
    (hhidden : hiddenPath list = .ok hidden) (haway : t.rename list.text hidden.text = .ok t₁)
    (hback : t₁.rename hidden.text list.text = .ok t') :
    t' = t.vacate hidden.text ∧ t'.IsTree := by
  obtain ⟨directory, name, n, hmovable, hn, hdir, hover⟩ :=
    exists_movable ht hread hhidden haway hback
  obtain ⟨t₂, haway', hback'⟩ := hmovable.moves hn hdir hover
  cases haway.symm.trans haway'
  cases hback.symm.trans hback'
  exact ⟨hmovable.entry_hidden.vacate_eq.symm, ht.erase concat_ne_nil hover⟩

/-- The tree without what stands at the hidden path of a list. -/
def bare (t : FileTree) (list : Path) : FileTree :=
  match hiddenPath list with
  | .ok hidden => t.vacate hidden.text
  | .error _ => t

theorem bare_eq (hhidden : hiddenPath list = .ok hidden) : bare t list = t.vacate hidden.text := by
  rw [bare, hhidden]

/-- What is read without it is read with it. -/
theorem read_of_bare {path : String} (h : (bare t list).read path = .ok octets) :
    t.read path = .ok octets := by
  rw [bare] at h
  split at h
  · exact read_eq_ok.mpr (stat_of_vacate (read_eq_ok.mp h))
  · exact h

variable {config : Json.Fields} {files : List Path} {calls : List Call}
  {r : Except Failure (List Report)} {reports : List Report}

/-- An answered question about a list that leads to a file shows that the list can be moved. -/
theorem Asking.movable (h : Asking list config files t calls (.ok reports) t') (ht : t.IsTree)
    (hread : t.read list.text = .ok octets) (hquiet : ∀ c ∈ calls, c.after = c.before) :
    files = [] ∧ calls = [] ∧ t' = t ∨ calls ≠ [] ∧ ∃ hidden directory name n,
      Movable t list hidden directory name ∧ t.node? (directory ++ [name]) = some n ∧
        n ≠ .directory ∧ t.node? (directory ++ [name ++ hiddenSuffix]) ≠ some .directory ∧
        t' = t.erase (directory ++ [name ++ hiddenSuffix]) := by
  cases h.toAnswered with
  | idle hfiles => exact Or.inl ⟨hfiles, rfl, rfl⟩
  | «open» _ c _ hno =>
    rw [existsAt, read_eq_ok.mp hread] at hno
    cases hno
  | hidden _ c _ hidden _ hhidden haway _ hback =>
    rw [hquiet c (by simp)] at hback
    obtain ⟨directory, name, n, hmovable, hn, hdir, hover⟩ :=
      exists_movable ht hread hhidden haway hback
    refine Or.inr ⟨by simp, hidden, directory, name, n, hmovable, hn, hdir, hover, ?_⟩
    rw [(eq_vacate_of_moves ht hread hhidden haway hback).1, hmovable.entry_hidden.vacate_eq]

/-- An answered question about a list that leads to a file. -/
theorem Asking.restored (h : Asking list config files t calls (.ok reports) t') (ht : t.IsTree)
    (hread : t.read list.text = .ok octets) (hquiet : ∀ c ∈ calls, c.after = c.before) :
    files = [] ∧ calls = [] ∧ t' = t ∨ calls ≠ [] ∧ t' = bare t list ∧ t'.IsTree := by
  rcases h.movable ht hread hquiet with hidle |
    ⟨hcalls, hidden, directory, name, n, hmovable, -, -, hover, rfl⟩
  · exact Or.inl hidle
  · rw [bare_eq hmovable.concealed, hmovable.entry_hidden.vacate_eq]
    exact Or.inr ⟨hcalls, rfl, ht.erase concat_ne_nil hover⟩

/-- If nothing is at the hidden path, an answered question leaves the tree as it is. -/
theorem Asking.unoccupied (h : Asking list config files t calls (.ok reports) t') (ht : t.IsTree)
    (hread : t.read list.text = .ok octets) (hquiet : ∀ c ∈ calls, c.after = c.before) {hidden : Path}
    (hhidden : hiddenPath list = .ok hidden) (habsent : t.isPresent hidden.text = false) : t' = t := by
  rcases h.movable ht hread hquiet with ⟨-, -, rfl⟩ |
    ⟨-, hidden, directory, name, n, hmovable, -, -, -, rfl⟩
  · rfl
  · cases hmovable.concealed.symm.trans hhidden
    exact erase_eq_self concat_ne_nil (hmovable.entry_hidden.isPresent_eq_false.mp habsent)

/-- A question about a list that can be moved takes away at most what stands at its hidden path. -/
theorem Asking.of_movable {hidden : Path} {directory : Location} {name : String}
    (h : Asking list config files t calls r t') (hmovable : Movable t list hidden directory name)
    (hdir : t.node? (directory ++ [name]) ≠ some .directory)
    (hquiet : ∀ c ∈ calls, c.after = c.before) :
    t' = t ∨ t' = t.erase (directory ++ [name ++ hiddenSuffix]) := by
  have hmoves : ∀ hidden' t₁, hiddenPath list = .ok hidden' →
      t.rename list.text hidden'.text = .ok t₁ → t₁.rename hidden'.text list.text =
        .ok (t.erase (directory ++ [name ++ hiddenSuffix])) := by
    intro hidden' t₁ hhidden' haway
    cases hmovable.concealed.symm.trans hhidden'
    obtain ⟨_, _, _, _, hentry, -, hsome⟩ := exists_entries_of_rename haway
      hmovable.entry_list.unslashed hmovable.entry_hidden.unslashed
    obtain ⟨rfl, rfl⟩ := hmovable.entry_list.unique hentry
    obtain ⟨n, hn⟩ := Option.ne_none_iff_exists'.mp hsome
    have hdir' : n ≠ .directory := by
      rintro rfl
      exact hdir hn
    obtain ⟨hover, -⟩ := eq_of_rename_hidden hentry hmovable.concealed hn hdir' haway
    obtain ⟨t₂, haway', hback⟩ := hmovable.moves hn hdir' hover
    cases haway.symm.trans haway'
    exact hback
  cases h with
  | idle | refused => exact Or.inl rfl
  | «open» _ c _ _ hbefore => exact Or.inl ((hquiet c (by simp)).trans hbefore)
  | hidden _ c _ hidden' _ hhidden' haway t'' hback =>
    rw [hquiet c (by simp), hmoves hidden' _ hhidden' haway] at hback
    cases hback
    exact Or.inr rfl
  | stranded _ c _ hidden' _ hhidden' haway e hback =>
    rw [hquiet c (by simp), hmoves hidden' _ hhidden' haway] at hback
    cases hback

/-- Later questions find nothing more to take away, even if the list leads to nothing now. -/
theorem Asking.stays (h : Asking list config files (bare t list) calls (.ok reports) t')
    (ht : (bare t list).IsTree) (hread : t.read list.text = .ok octets)
    (hquiet : ∀ c ∈ calls, c.after = c.before) : t' = bare t list := by
  cases h.toAnswered with
  | idle => rfl
  | «open» _ c _ _ hbefore => rw [hquiet c (by simp), hbefore]
  | hidden _ c _ hidden hyes hhidden haway _ hback =>
    rw [hquiet c (by simp)] at hback
    rw [bare_eq hhidden] at hyes haway ht ⊢
    obtain ⟨n, hn⟩ := exists_stat_of_existsAt hyes
    have hsame := stat_of_vacate hn
    rw [read_eq_ok.mp hread] at hsame
    cases hsame
    rw [(eq_vacate_of_moves ht (read_eq_ok.mpr hn) hhidden haway hback).1, vacate_vacate]

end Query
end LintDebt
