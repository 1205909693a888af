import LintDebt.Proofs.Query.Answering

/-! # What the linter is shown

A question moves the list to its hidden path, over whatever stands there. The next question finds
nothing there and moves the list again, or finds no list: that is so if the list is a link that leads
through its own hidden path. In both cases the linter reads the same at every path, so that all
questions of a run show it the same files. -/

namespace LintDebt

open FileTree

namespace FileTree

variable {t : FileTree} {l : Location} {n : Node}

theorem erase_put : (t.erase l).put l n = t.put l n := by
  refine ext_nodes (fun j => ?_) rfl
  simp only [nodes_put, nodes_erase]
  split <;> rfl

end FileTree

namespace Query

variable {t t' t'' : FileTree} {list hidden : Path} {directory : Location} {name target path : String}
  {n : Node} {octets : List UInt8} {config : Json.Fields} {files : List Path} {calls : List Call}
  {r : Except Failure (List Report)}

/-- The tree in which the linter is asked about a list that can be hidden. -/
def shown (t : FileTree) (list : Path) : FileTree :=
  match hiddenPath list with
  | .error _ => t
  | .ok hidden =>
    match t.rename list.text hidden.text with
    | .error _ => t
    | .ok t' => t'

theorem shown_eq (hhidden : hiddenPath list = .ok hidden)
    (haway : t.rename list.text hidden.text = .ok t') : shown t list = t' := by
  simp only [shown, hhidden, haway]

/-- A list that can be moved, with its entry. -/
structure Mobile (t : FileTree) (list hidden : Path) (directory : Location) (name : String) (n : Node) :
    Prop extends Movable t list hidden directory name where
  node : t.node? (directory ++ [name]) = some n
  free : n ≠ .directory
  room : t.node? (directory ++ [name ++ hiddenSuffix]) ≠ some .directory

/-- Holds if one tree is another without what stands at the hidden path of a list that can be moved. -/
def Cleared (t : FileTree) (list : Path) (t' : FileTree) : Prop :=
  ∃ hidden directory name n, Mobile t list hidden directory name n ∧
    t' = t.erase (directory ++ [name ++ hiddenSuffix])

namespace Mobile

theorem shown_eq (h : Mobile t list hidden directory name n) :
    shown t list = aside t directory name n :=
  Query.shown_eq h.concealed
    (h.entry_list.rename h.entry_hidden ne_hidden_name h.node h.free h.room)

/-- The list can be moved from the cleared tree too. -/
theorem cleared (h : Mobile t list hidden directory name n) :
    Mobile (t.erase (directory ++ [name ++ hiddenSuffix])) list hidden directory name n := by
  refine ⟨h.toMovable.erase, ?_, h.free, ?_⟩
  · rw [node?_erase concat_ne_nil, if_neg concat_ne_hidden, h.node]
  · rw [node?_erase concat_ne_nil, if_pos rfl]
    nofun

theorem shown_cleared (h : Mobile t list hidden directory name n) :
    shown (t.erase (directory ++ [name ++ hiddenSuffix])) list = shown t list := by
  rw [h.cleared.shown_eq, h.shown_eq, aside, aside, erase_erase_comm, erase_put]

/-- A list that is read is no link to nothing. -/
theorem target_nonempty (h : Mobile t list hidden directory name (.link target))
    (hread : t.read list.text = .ok octets) : target ≠ "" := by
  rintro rfl
  obtain ⟨n, l', hn, -, -, hfile, hto⟩ := h.entry_list.leads hread
  cases h.node.symm.trans hn
  obtain ⟨j, hj⟩ := hto "" rfl
  rw [show (Route.parse "").steps = [] from rfl, walk_nil] at hj
  cases hj
  rw [show (Route.parse "").absolute = false from rfl, if_neg Bool.false_ne_true,
    h.entry_list.directory_eq] at hfile
  cases hfile

/-- If a list that was a link leads nowhere in the cleared tree, then nothing is found behind its
target there. -/
theorem leads_nowhere (h : Mobile t list hidden directory name (.link target)) (ht : t.IsTree)
    (hread : t.read list.text = .ok octets)
    (hgone : (t.erase (directory ++ [name ++ hiddenSuffix])).existsAt list.text ≠ .ok true)
    (k : Nat) (rest : List String) (l : Location) :
    (t.erase (directory ++ [name ++ hiddenSuffix])).walk true k
      (if (Route.parse target).absolute then [] else directory)
      ((Route.parse target).steps ++ rest) ≠ .ok (.found l) := by
  have hd : directory ++ [name ++ hiddenSuffix] ≠ [] := concat_ne_nil
  have ht' := ht.erase hd h.room
  have hentry := h.cleared.entry_list
  have hnode := h.cleared.node
  generalize hstart : (if (Route.parse target).absolute then [] else directory) = start
  have htarget := h.target_nonempty hread
  -- The target alone would do, and the list would then be found within as many links as before.
  suffices hsuffices : ∀ k l, (t.erase (directory ++ [name ++ hiddenSuffix])).walk true k start
      (Route.parse target).steps ≠ .ok (.found l) by
    intro hwalk
    rcases rest with _ | ⟨first, rest⟩
    · rw [List.append_nil] at hwalk
      exact hsuffices k l hwalk
    · obtain ⟨d, k', -, hd, -, -⟩ := walk_split _ _ _ (List.cons_ne_nil first rest) hwalk
      exact hsuffices k d hd
  intro k l hwalk
  obtain ⟨hcheck, hparent, hdir, hlast, hdot, hup⟩ := splitLast_eq_ok.mp hentry.split
  have hsteps : (Route.parse list.text).steps = (Route.parse list.text).names.dropLast ++ [name] := by
    rw [Route.steps, hentry.unslashed, ← eq_dropLast_append hlast]
    rfl
  have hlink : (t.erase (directory ++ [name ++ hiddenSuffix])).walk true (k + 1) directory [name] =
      .ok (.found l) := by
    rw [walk_cons, move_of_ordinary ⟨hdot, hup, hentry.size_le⟩, enter, hnode]
    simp only [List.isEmpty_nil, Bool.not_true, Bool.false_eq_true, and_false, ↓reduceIte, htarget,
      hstart, List.append_nil]
    exact hwalk
  obtain ⟨k', -, hparent⟩ := walk_append (f := true) _ _ _ (List.cons_ne_nil name []) hparent hdir
  have hlist := hparent (k + 1)
  rw [← hsteps, walk_mono _ _ _ hlink _ (Nat.le_add_left (k + 1) k')] at hlist
  obtain ⟨hnull, l', hl'⟩ := stat_eq_ok.mp (read_eq_ok.mp hread)
  obtain ⟨-, hbefore, -⟩ := lookup_eq_ok.mp hl'
  have hwithin := walk_erase_within hd hlist hbefore
  refine hgone ?_
  obtain ⟨m, hm⟩ := Option.ne_none_iff_exists'.mp (ht'.node?_of_walk _ _ _ ht'.start hwithin)
  rw [existsAt, stat_eq_ok.mpr ⟨hnull, l, lookup_eq_ok.mpr ⟨hcheck, hwithin, hm⟩⟩]
  rfl

theorem erase_cleared : (t.erase (directory ++ [name ++ hiddenSuffix])).erase (directory ++ [name]) =
    (aside t directory name n).erase (directory ++ [name ++ hiddenSuffix]) := by
  rw [aside, put_erase, erase_erase_comm]

/-- The same files are there whether a link is hidden or left where it is. -/
theorem node?_aside (h : Mobile t list hidden directory name (.link target)) {old : List UInt8}
    (l : Location) : (aside t directory name (.link target)).node? l = some (.file old) ↔
      (t.erase (directory ++ [name ++ hiddenSuffix])).node? l = some (.file old) := by
  rw [aside, node?_put concat_ne_nil, node?_erase concat_ne_nil, node?_erase concat_ne_nil]
  by_cases hhidden : l = directory ++ [name ++ hiddenSuffix]
  · simp [hhidden]
  by_cases hlist : l = directory ++ [name]
  · simp [hlist, h.node]
  · simp [hhidden, hlist]

section gone

variable (h : Mobile t list hidden directory name (.link target)) (ht : t.IsTree)
  (hread : t.read list.text = .ok octets)
  (hgone : (t.erase (directory ++ [name ++ hiddenSuffix])).existsAt list.text ≠ .ok true)
include h ht hread hgone

/-- What is found while the list is left where it is, is found while it is hidden. -/
theorem walk_aside {k : Nat} {p l : Location} {names : List String} (hl : l ≠ directory ++ [name])
    (hwalk : (t.erase (directory ++ [name ++ hiddenSuffix])).walk true k p names = .ok (.found l)) :
    (aside t directory name (.link target)).walk true k p names = .ok (.found l) := by
  have hnode := h.cleared.node
  rcases walk_erase_or concat_ne_nil (by rw [hnode]; simp) k p names hwalk with
    hwalk | hwalk | ⟨target', k', rest, htarget, -, hwalk⟩
  · rw [erase_cleared] at hwalk
    exact walk_of_erase concat_ne_nil _ _ _ hwalk
  · exact absurd hwalk hl
  · cases hnode.symm.trans htarget
    rw [List.dropLast_concat] at hwalk
    exact absurd hwalk (h.leads_nowhere ht hread hgone k' rest l)

/-- What is found while the list is hidden, is found while it is left where it is. The moved link leads
where the link did, which is nowhere. -/
theorem walk_of_aside {k : Nat} {p l : Location} {names : List String}
    (hl : l ≠ directory ++ [name ++ hiddenSuffix])
    (hwalk : (aside t directory name (.link target)).walk true k p names = .ok (.found l)) :
    (t.erase (directory ++ [name ++ hiddenSuffix])).walk true k p names = .ok (.found l) := by
  have hhidden : (aside t directory name (.link target)).node?
      (directory ++ [name ++ hiddenSuffix]) = some (.link target) := by
    rw [aside, node?_put concat_ne_nil, if_pos rfl]
  induction k using Nat.strongRecOn generalizing p names with
  | _ k ih =>
    rcases walk_erase_or concat_ne_nil (by rw [hhidden]; simp) k p names hwalk with
      hwalk | hwalk | ⟨target', k', rest, htarget, hk', hwalk⟩
    · rw [← erase_cleared] at hwalk
      exact walk_of_erase concat_ne_nil _ _ _ hwalk
    · exact absurd hwalk hl
    · cases hhidden.symm.trans htarget
      rw [List.dropLast_concat] at hwalk
      exact absurd (ih k' hk' hwalk) (h.leads_nowhere ht hread hgone k' rest l)

/-- Then the linter reads the same whether the list is hidden or left where it is. -/
theorem read_aside_iff {old : List UInt8} :
    (t.erase (directory ++ [name ++ hiddenSuffix])).read path = .ok old ↔
      (aside t directory name (.link target)).read path = .ok old := by
  rw [read_eq_ok, read_eq_ok, stat_eq_ok, stat_eq_ok]
  refine and_congr_right fun _ => exists_congr fun l => ?_
  rw [lookup_eq_ok, lookup_eq_ok, h.node?_aside]
  refine and_congr_right fun _ => and_congr_left fun hfile => ?_
  have hne : l ≠ directory ++ [name] := by
    rintro rfl
    rw [h.cleared.node] at hfile
    cases hfile
  have hne' : l ≠ directory ++ [name ++ hiddenSuffix] := by
    rintro rfl
    rw [node?_erase concat_ne_nil, if_pos rfl] at hfile
    cases hfile
  exact ⟨h.walk_aside ht hread hgone hne, h.walk_of_aside ht hread hgone hne'⟩

end gone

end Mobile

theorem Cleared.eq_bare (h : Cleared t list t') : t' = bare t list := by
  obtain ⟨hidden, directory, name, n, hmobile, rfl⟩ := h
  rw [bare_eq hmobile.concealed, hmobile.entry_hidden.vacate_eq]

theorem Cleared.isTree (h : Cleared t list t') (ht : t.IsTree) : t'.IsTree := by
  obtain ⟨hidden, directory, name, n, hmobile, rfl⟩ := h
  exact ht.erase concat_ne_nil hmobile.room

/-- What a run of questions leaves of a tree: all of it, or all but what stood at the hidden path. -/
def Spared (t : FileTree) (list : Path) (t' : FileTree) : Prop :=
  t' = t ∨ Cleared t list t'

/-- An answered question clears the hidden path, if there is anything to ask about. -/
theorem Asking.cleared (h : Asking list config files t' calls r t'') (hr : ∃ reports, r = .ok reports)
    (hspared : Spared t list t') (ht : t.IsTree) (hread : t.read list.text = .ok octets)
    (hquiet : ∀ c ∈ calls, c.after = c.before) (hfiles : files ≠ []) : Cleared t list t'' := by
  obtain ⟨reports, rfl⟩ := hr
  rcases hspared with rfl | hcleared
  · rcases h.movable ht hread hquiet with
      ⟨hnil, -⟩ | ⟨-, hidden, directory, name, n, hmovable, hn, hdir, hover, rfl⟩
    · exact absurd hnil hfiles
    · exact ⟨hidden, directory, name, n, ⟨hmovable, hn, hdir, hover⟩, rfl⟩
  · have hbare := hcleared.eq_bare
    rw [hbare] at h
    rwa [h.stays (hbare ▸ hcleared.isTree ht) hread hquiet, ← hbare]

/-- Every question shows the linter the same files. -/
theorem Asking.shows (h : Asking list config files t' calls r t'') (hspared : Spared t list t')
    (ht : t.IsTree) (hread : t.read list.text = .ok octets) :
    ∀ c ∈ calls, ∀ path, (c.before.read path).toOption = ((shown t list).read path).toOption := by
  have hmoved : ∀ hidden t₁, hiddenPath list = .ok hidden →
      t'.rename list.text hidden.text = .ok t₁ → t₁ = shown t list := by
    intro hidden t₁ hhidden haway
    rw [← shown_eq hhidden haway]
    rcases hspared with rfl | ⟨_, _, _, _, hmobile, rfl⟩
    · rfl
    · exact hmobile.shown_cleared
  intro c hc path
  cases h with
  | idle | refused => cases hc
  | hidden _ c' _ hidden _ hhidden haway =>
    rw [List.mem_singleton.mp hc, hmoved hidden _ hhidden haway]
  | stranded _ c' _ hidden _ hhidden haway =>
    rw [List.mem_singleton.mp hc, hmoved hidden _ hhidden haway]
  | «open» _ c' _ hgone hbefore =>
    rw [List.mem_singleton.mp hc, hbefore]
    rcases hspared with rfl | ⟨hidden, directory, name, n, hmobile, rfl⟩
    · rw [existsAt, read_eq_ok.mp hread] at hgone
      cases hgone
    cases n with
    | directory => exact absurd rfl hmobile.free
    | file old => rw [hmobile.cleared.entry_list.existsAt hmobile.cleared.node] at hgone; cases hgone
    | link target =>
      rw [hmobile.shown_eq]
      have hiff : ∀ old, (t.erase (directory ++ [name ++ hiddenSuffix])).read path = .ok old ↔
          (aside t directory name (.link target)).read path = .ok old := fun _ =>
        hmobile.read_aside_iff ht hread (by rw [hgone]; simp)
      exact Option.ext fun old => mem_toOption.trans ((hiff old).trans mem_toOption.symm)

/-- Where a write to the list goes when nothing stands at its hidden path: to the file that the list
is or leads to, or, if the list leads nowhere now, to the hidden path. -/
theorem Mobile.place_of_write (h : Mobile t list hidden directory name n) (ht : t.IsTree)
    (hread : t.read list.text = .ok octets) {new : List UInt8}
    (hwrite : (t.erase (directory ++ [name ++ hiddenSuffix])).write list.text new = .ok t') :
    ∃ x, x ≠ [] ∧ t' = (t.erase (directory ++ [name ++ hiddenSuffix])).put x (.file new) ∧
      (x = directory ++ [name ++ hiddenSuffix] ∧
        (∀ old, (t.erase (directory ++ [name ++ hiddenSuffix])).read list.text ≠ .ok old) ∨
      t.target? list.text = some x ∧
        ∃ old, (t.erase (directory ++ [name ++ hiddenSuffix])).node? x = some (.file old)) := by
  have hd : directory ++ [name ++ hiddenSuffix] ≠ [] := concat_ne_nil
  obtain ⟨spot, hnull, hseek, hne, hway, rfl, -⟩ := exists_place_of_write hwrite
  obtain ⟨-, l, hl⟩ := stat_eq_ok.mp (read_eq_ok.mp hread)
  obtain ⟨hcheck, hwalk, hnode⟩ := lookup_eq_ok.mp hl
  rw [seek_eq, hcheck] at hseek
  refine ⟨spot.place, hne, rfl, ?_⟩
  rcases walk_without hd _ _ _ hwalk with hsame | hgone | ⟨d, m, hdm, hvacant⟩
  · cases hsame.symm.trans hseek
    right
    obtain ⟨old, hold⟩ : ∃ old, (t.erase (directory ++ [name ++ hiddenSuffix])).node? l =
        some (.file old) := by
      have hsome := (ht.erase hd h.room).node?_of_walk _ _ _ (ht.erase hd h.room).start hsame
      obtain ⟨m, hm⟩ := Option.ne_none_iff_exists'.mp hsome
      rw [way?, Spot.place, hm] at hway
      cases m with
      | file old => exact ⟨old, hm⟩
      | directory | link target => simp [Node.isWay] at hway
    refine ⟨target?_of_seek (x := .found l) hnull ?_, old, hold⟩
    rw [seek_eq, hcheck]
    exact hwalk
  · cases hgone.symm.trans hseek
  · cases hvacant.symm.trans hseek
    refine Or.inl ⟨hdm, fun old hold => ?_⟩
    obtain ⟨-, l', hl'⟩ := stat_eq_ok.mp (read_eq_ok.mp hold)
    cases hvacant.symm.trans (lookup_eq_ok.mp hl').2.1

/-- A write to a file changes what the linter is shown at one place: at the hidden path if the file is
the list, and else at the file. -/
theorem Mobile.shown_put (h : Mobile t list hidden directory name n) {x : Location} (hx : x ≠ [])
    {old : List UInt8} (hold : (t.erase (directory ++ [name ++ hiddenSuffix])).node? x = some (.file old))
    (new : List UInt8) : ∃ y, (shown t list).node? y = some (.file old) ∧
      shown ((t.erase (directory ++ [name ++ hiddenSuffix])).put x (.file new)) list =
        (shown t list).put y (.file new) ∧
      (y = x ∨ (shown t list).target? hidden.text = some y) := by
  have hs : directory ++ [name] ≠ [] := concat_ne_nil
  have hd : directory ++ [name ++ hiddenSuffix] ≠ [] := concat_ne_nil
  have hxd : x ≠ directory ++ [name ++ hiddenSuffix] := by
    rintro rfl
    rw [node?_erase hd, if_pos rfl] at hold
    cases hold
  have hmovable := h.cleared.toMovable.of_sameWays (SameShape.put hx hold new).sameWays
  have hover : ((t.erase (directory ++ [name ++ hiddenSuffix])).put x (.file new)).node?
      (directory ++ [name ++ hiddenSuffix]) ≠ some .directory := by
    rw [node?_put hx, if_neg hxd.symm, node?_erase hd, if_pos rfl]
    simp
  by_cases hxs : x = directory ++ [name]
  · subst hxs
    obtain rfl : n = .file old := Option.some.inj (h.cleared.node.symm.trans hold)
    have hmobile : Mobile _ list hidden directory name (.file new) :=
      ⟨hmovable, by rw [node?_put hs, if_pos rfl], by simp, hover⟩
    have hself : (aside t directory name (.file old)).node? (directory ++ [name ++ hiddenSuffix]) =
        some (.file old) := by
      rw [aside, node?_put hd, if_pos rfl]
    have hentry : (aside t directory name (.file old)).Entry hidden.text directory
        (name ++ hiddenSuffix) := by
      refine Entry.of_erase hd ?_
      rw [aside, put_erase]
      exact h.entry'
    rw [hmobile.shown_eq, h.shown_eq]
    refine ⟨_, hself, ?_, Or.inr (hentry.target?_eq fun target => by rw [hself]; simp)⟩
    rw [aside, aside, put_erase, erase_erase_comm, erase_put, put_put_self]
  · have hmobile : Mobile _ list hidden directory name n :=
      ⟨hmovable, by rw [node?_put hx, if_neg (Ne.symm hxs), h.cleared.node], h.free, hover⟩
    rw [hmobile.shown_eq, h.shown_eq]
    refine ⟨x, ?_, ?_, Or.inl rfl⟩
    · rw [node?_erase hd, if_neg hxd] at hold
      rw [aside, node?_put hd, if_neg hxd, node?_erase hs, if_neg hxs, hold]
    · rw [aside, aside, put_put_comm (Ne.symm hxd)]
      refine ext_nodes (fun k => ?_) rfl
      simp only [nodes_put, nodes_erase]
      by_cases hk : k = x
      · simp [hk, hxs, hxd]
      · by_cases hkd : k = directory ++ [name ++ hiddenSuffix] <;> simp [hk, hkd]

/-- A list that is found is hidden when the linter is asked. -/
theorem Asking.before_eq (h : Asking list config files t calls r t') (hread : t.read list.text = .ok octets) :
    ∀ c ∈ calls, c.before = shown t list := by
  intro c hc
  cases h with
  | idle | refused => cases hc
  | «open» _ c' _ hno => rw [existsAt, read_eq_ok.mp hread] at hno; cases hno
  | hidden _ c' _ hidden _ hhidden haway | stranded _ c' _ hidden _ hhidden haway =>
    rw [List.mem_singleton.mp hc, shown_eq hhidden haway]

/-- A question about a list that was written shows the linter what it was shown before, except for the
file that was written: that is the list at its hidden path, or the file that the list leads to. -/
theorem Asking.shows_written {new : List UInt8} {reports : List Report} {t₁ : FileTree}
    (h : Asking list config files t₁ calls (.ok reports) t') (hcleared : Cleared t list t'')
    (ht : t.IsTree) (hread : t.read list.text = .ok octets)
    (hwrite : t''.write list.text new = .ok t₁) (hquiet : ∀ c ∈ calls, c.after = c.before)
    (hfiles : files ≠ []) (hback : ∃ old, t'.read list.text = .ok old) :
    ∃ y old, (shown t list).node? y = some (.file old) ∧ (t.target? list.text = some y ∨
        ∃ hidden, hiddenPath list = .ok hidden ∧ (shown t list).target? hidden.text = some y) ∧
      ∀ c ∈ calls, c.before = (shown t list).put y (.file new) := by
  obtain ⟨hidden, directory, name, n, hmobile, rfl⟩ := hcleared
  have hd : directory ++ [name ++ hiddenSuffix] ≠ [] := concat_ne_nil
  have hnew := read_of_write hwrite
  obtain ⟨x, hx, rfl, ⟨rfl, hgone⟩ | ⟨htarget, old, hold⟩⟩ := hmobile.place_of_write ht hread hwrite
  · -- The list was written to its hidden path, and that is cleared again.
    rcases h.restored ((ht.erase hd hmobile.room).write hwrite) hnew hquiet with
      ⟨hnil, -⟩ | ⟨-, hbare, -⟩
    · exact absurd hnil hfiles
    obtain ⟨old, hold⟩ := hback
    have hways := sameWays_put (t := t.erase (directory ++ [name ++ hiddenSuffix])) hd
      (by rw [way?, node?_erase hd, if_pos rfl]; rfl) new
    rw [hbare, bare_eq hmobile.concealed,
      (hmobile.cleared.entry_hidden.of_sameWays hways).vacate_eq, put_erase, erase_erase_self] at hold
    exact absurd hold (hgone old)
  · obtain ⟨y, hy, hshown, hplace⟩ := hmobile.shown_put hx hold new
    refine ⟨y, old, hy, ?_, fun c hc => (h.before_eq hnew c hc).trans hshown⟩
    rcases hplace with rfl | hplace
    · exact Or.inl htarget
    · exact Or.inr ⟨hidden, hmobile.concealed, hplace⟩

end Query
end LintDebt
