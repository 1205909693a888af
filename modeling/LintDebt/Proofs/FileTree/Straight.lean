import LintDebt.Proofs.FileTree.Settling

/-! # Paths without links

A path is straight if no link is on it: its names lead from directory to directory as they stand. One
name more, or one level up, keeps it straight. A straight path is told apart from a link at its end by
one question to the system, unless it is too long to be asked about, and made absolute it is the path
of the place that it leads to. -/

namespace LintDebt.FileTree

variable {t : FileTree} {f : Bool} {k : Nat} {q : Path} {place d l : Location} {name : String}
  {names : List String} {n : Node}

/-- A walk through one name and others passes through what the first leads to, and needs no more
links from there on. -/
theorem walk_first {rest : List String} (ht : t.IsTree) (hplace : t.node? place = some .directory)
    (h : t.walk true k place (name :: rest) = .ok (.found l)) :
    ∃ d k', k' ≤ k ∧ t.walk true k place [name] = .ok (.found d) ∧
      t.walk true k' d rest = .ok (.found l) ∧ (rest ≠ [] → t.node? d = some .directory) := by
  cases rest with
  | nil => exact ⟨l, k, Nat.le_refl k, h, walk_nil, fun hne => absurd rfl hne⟩
  | cons second rest =>
    obtain ⟨d, k', hk', hd, hrest, hdir⟩ := walk_split k place [name] (List.cons_ne_nil second rest) h
    exact ⟨d, k', hk', hd, hrest, fun _ => hdir ht hplace⟩

/-- Made absolute, a path is the path of the place that its names lead to. -/
theorem Named.absolute_eq_place (ht : t.Named) (hroot : q.root ≠ .doubled) :
    t.absolute q = .ofLocation (t.place q) := by
  obtain ⟨root, names⟩ := q
  cases root with
  | relative =>
    rw [absolute, collapse_eq, List.foldl_append, ht.foldl_goTo (by rw [ht.here]; simp)]
    rfl
  | absolute => rfl
  | doubled => exact absurd rfl hroot

/-- Holds for a path on which there is no link, with the place that it leads to. -/
structure Straight (t : FileTree) (q : Path) (l : Location) : Prop where
  root : q.root ≠ .doubled
  names : ∀ name ∈ q.names, IsEntryName name ∨ q.root = .relative ∧ name = ".."
  walk : t.walk true 0 (t.origin q) q.names = .ok (.found l)

namespace Straight

theorem start_relative (t : FileTree) : t.Straight ⟨.relative, []⟩ t.here :=
  ⟨nofun, nofun, walk_nil⟩

theorem start_absolute (t : FileTree) : t.Straight ⟨.absolute, []⟩ [] :=
  ⟨nofun, nofun, walk_nil⟩

/-- The path of a place is straight, unless a link stands there. -/
theorem of_place (ht : t.Named) (hn : t.node? l = some n) (hlink : ∀ target, n ≠ .link target) :
    t.Straight (.ofLocation l) l :=
  ⟨nofun, fun name hname => Or.inl (ht.names l (by rw [hn]; simp) name hname),
    ht.walk_below (l := []) hn hlink⟩

theorem settled (h : t.Straight q l) : Settled q := by
  intro name hname
  rcases h.names name hname with hentry | ⟨hroot, rfl⟩
  · exact ⟨hentry.nonempty, hentry.ne_dot, fun _ => hentry.ne_up⟩
  · exact ⟨by decide, by decide, fun hnot => absurd hroot hnot⟩

theorem proper (h : t.Straight q l) : q.Proper := by
  intro name hname
  rcases h.names name hname with hentry | ⟨-, rfl⟩
  · exact hentry.toIsName
  · exact ⟨by decide, by decide⟩

theorem nonnull (h : t.Straight q l) : ∀ name ∈ q.names, '\x00' ∉ name.toList := by
  intro name hname
  rcases h.names name hname with hentry | ⟨-, rfl⟩
  · exact hentry.nonnull
  · decide

/-- To walk on from a straight path is to walk on from its place. -/
theorem walk_append (h : t.Straight q d) (hd : t.node? d = some .directory) (k : Nat)
    (hne : names ≠ []) : t.walk f k (t.origin q) (q.names ++ names) = t.walk f k d names := by
  obtain ⟨k', hk', hwalk⟩ := FileTree.walk_append (f := f) 0 (t.origin q) q.names hne h.walk hd
  obtain rfl : k' = 0 := Nat.le_zero.mp hk'
  simpa using hwalk k

theorem append (h : t.Straight q d) (hd : t.node? d = some .directory) (hname : IsEntryName name)
    (hlink : ∀ target, t.node? (d ++ [name]) ≠ some (.link target))
    (hn : t.node? (d ++ [name]) ≠ none) : t.Straight ⟨q.root, q.names ++ [name]⟩ (d ++ [name]) := by
  refine ⟨h.root, ?_, ?_⟩
  · intro other hother
    rcases List.mem_append.mp hother with hother | hother
    · exact h.names other hother
    · exact Or.inl (by rwa [List.mem_singleton.mp hother])
  · refine (h.walk_append hd 0 (List.cons_ne_nil name [])).trans ?_
    obtain ⟨n, hn⟩ := Option.ne_none_iff_exists'.mp hn
    rw [walk_entry hname.toOrdinary fun _ => hlink, hn]

/-- Without links a walk goes where the names lead. -/
theorem place_eq (h : t.Straight q l) : t.place q = l := by
  have hwalk : ∀ names place, (∀ name ∈ names, IsEntryName name ∨ q.root = .relative ∧ name = "..") →
      t.walk true 0 place names = .ok (.found l) → names.foldl goTo place = l := by
    intro names
    induction names with
    | nil =>
      intro place _ hwalk
      rw [walk_nil] at hwalk
      cases hwalk
      rfl
    | cons name rest ih =>
      intro place hnames hwalk
      obtain ⟨hname, hrest⟩ := List.forall_mem_cons.mp hnames
      rw [List.foldl_cons]
      rcases hname with hentry | ⟨-, rfl⟩
      · rw [goTo_entry hentry]
        rcases walk_ordinary_cases hentry.toOrdinary hwalk with
          ⟨-, hwalk⟩ | ⟨-, rfl, rfl⟩ | ⟨target, j, -, hj, -⟩
        · exact ih _ hrest hwalk
        · rfl
        · cases hj
      · rw [walk_up] at hwalk
        rw [goTo_up]
        exact ih _ hrest hwalk
  exact hwalk q.names (t.origin q) h.names h.walk

/-- One level up is the directory above. -/
theorem up (h : t.Straight q d) (hd : t.node? d = some .directory) : t.Straight q.up d.dropLast := by
  have hplace : t.place q.up = d.dropLast := by
    rw [h.settled.place_up, h.place_eq]
  unfold Path.up at hplace ⊢
  split
  · next hrelative =>
    refine ⟨h.root, ?_, ?_⟩
    · intro name hname
      rcases List.mem_append.mp hname with hname | hname
      · exact h.names name hname
      · exact Or.inr ⟨hrelative.1, List.mem_singleton.mp hname⟩
    · exact (h.walk_append hd 0 (List.cons_ne_nil ".." [])).trans (walk_up.trans walk_nil)
  next hkept =>
  rw [if_neg hkept] at hplace
  -- What is left of the names leads somewhere, and that is what they say.
  obtain ⟨d', hd'⟩ : ∃ d', t.walk true 0 (t.origin q) q.names.dropLast = .ok (.found d') := by
    rcases List.eq_nil_or_concat' q.names with hnil | ⟨above, last, hnames⟩
    · rw [hnil]
      exact ⟨_, walk_nil⟩
    · have hwalk := h.walk
      rw [hnames] at hwalk ⊢
      obtain ⟨d', k, hk, hd', -⟩ := walk_split _ _ _ (List.cons_ne_nil last []) hwalk
      exact ⟨d', by rwa [List.dropLast_concat]⟩
  have hparent : t.Straight q.parent d' :=
    ⟨h.root, fun name hname => h.names name (List.dropLast_subset _ hname), hd'⟩
  rwa [← hplace, hparent.place_eq]

/-- Whether a link stands in the directory of a straight path can be asked, unless the path is too
long. -/
theorem lstat_link (h : t.Straight q d) (hd : t.node? d = some .directory) (hname : IsEntryName name)
    {target : String} : t.lstat (Path.mk q.root (q.names ++ [name])).text = .ok (.link target) ↔
      (Path.mk q.root (q.names ++ [name])).text.utf8ByteSize ≤ pathLimit ∧
        t.node? (d ++ [name]) = some (.link target) := by
  have hproper : (Path.mk q.root (q.names ++ [name])).Proper :=
    h.proper.append (by simpa using hname.toIsName)
  have hnull : '\x00' ∉ (Path.mk q.root (q.names ++ [name])).text.toList := by
    apply nonnull_text
    intro other hother
    rcases List.mem_append.mp hother with hother | hother
    · exact h.nonnull other hother
    · rw [List.mem_singleton.mp hother]
      exact hname.nonnull
  have hwalk : t.walk false linkLimit (t.origin ⟨q.root, q.names ++ [name]⟩) (q.names ++ [name]) = _ :=
    (h.walk_append hd linkLimit (List.cons_ne_nil name [])).trans
      (walk_entry hname.toOrdinary fun hfalse => absurd hfalse Bool.false_ne_true)
  rw [lstat_eq_ok, and_iff_right hnull]
  simp only [lookup_eq, seek_text hproper]
  by_cases hlong : pathLimit < (Path.mk q.root (q.names ++ [name])).text.utf8ByteSize
  · simp [hlong, Nat.not_le.mpr hlong]
  · rw [if_neg hlong, hwalk]
    cases hn : t.node? (d ++ [name]) <;> simp [hn, Nat.not_lt.mp hlong]

/-- Made absolute, a straight path is the path of its place. -/
theorem absolute_eq (h : t.Straight q l) (ht : t.Named) : t.absolute q = .ofLocation l := by
  rw [ht.absolute_eq_place h.root, h.place_eq]

end Straight

end LintDebt.FileTree
