import LintDebt.Proofs.FileTree.Walks

/-! # Entries of directories

A path that is not followed to its end names an entry: a directory, and a name in it. `splitLast`
finds both, and what `lstat` and `renameOn` do is said here in terms of the entries alone. In a tree
every file is found through its entry. -/

namespace LintDebt.FileTree

variable {t t' : FileTree} {r : Route} {directory : Location} {name : String}

theorem eq_dropLast_append {names : List String} (h : names.getLast? = some name) :
    names = names.dropLast ++ [name] := by
  obtain ⟨init, rfl⟩ := List.getLast?_eq_some_iff.mp h
  rw [List.dropLast_concat]

/-- A route leads to an entry if its directory is there and its last name is that of the entry. -/
theorem splitLast_eq_ok : t.splitLast r = .ok (directory, some name) ↔
    checkRoute r = .ok () ∧ t.walk true linkLimit (t.start r) r.names.dropLast = .ok (.found directory) ∧
      t.node? directory = some .directory ∧ r.names.getLast? = some name ∧ name ≠ "." ∧ name ≠ ".." := by
  rw [splitLast]
  rcases hc : checkRoute r with e | ⟨⟩
  · simp [bind, Except.bind]
  rcases hw : t.walk true linkLimit (t.start r) r.names.dropLast with e | x
  · simp [bind, Except.bind]
  cases x with
  | vacant d m => simp [bind, Except.bind]
  | found l =>
    by_cases hl : t.node? l = some .directory
    · simp only [bind, Except.bind, hl, ne_eq, not_true_eq_false, ↓reduceIte, Except.ok.injEq,
        Prod.mk.injEq, Option.filter_eq_some_iff, Spot.found.injEq, decide_eq_true_eq, true_and]
      constructor
      · rintro ⟨rfl, hname⟩
        exact ⟨rfl, hl, hname⟩
      · rintro ⟨rfl, -, hname⟩
        exact ⟨rfl, hname⟩
    · simp only [bind, Except.bind, hl, ne_eq, not_false_eq_true, ↓reduceIte, reduceCtorEq, false_iff,
        Except.ok.injEq, Spot.found.injEq]
      rintro ⟨-, rfl, h, -⟩
      exact hl h

/-- The last step of a walk, if it does not follow a link. -/
theorem walk_entry {f : Bool} {k : Nat} (hname : Ordinary name)
    (hlink : f = true → ∀ target, t.node? (directory ++ [name]) ≠ some (.link target)) :
    t.walk f k directory [name] = match t.node? (directory ++ [name]) with
      | none => .ok (.vacant directory name)
      | some _ => .ok (.found (directory ++ [name])) := by
  rw [walk_cons, move_of_ordinary hname, enter]
  cases hn : t.node? (directory ++ [name]) with
  | none => rfl
  | some n =>
    cases n with
    | file octets => rfl
    | directory => exact walk_nil
    | link target =>
      cases f with
      | false => rfl
      | true => exact absurd hn (hlink rfl target)

/-- A path leads to its entry, if it does not follow a link there. -/
theorem seek_entry {f : Bool} (h : t.splitLast r = .ok (directory, some name))
    (hslash : r.slashed = false) (hsize : name.utf8ByteSize ≤ nameLimit)
    (hlink : f = true → ∀ target, t.node? (directory ++ [name]) ≠ some (.link target)) :
    t.seek f r = match t.node? (directory ++ [name]) with
      | none => .ok (.vacant directory name)
      | some _ => .ok (.found (directory ++ [name])) := by
  obtain ⟨hcheck, hwalk, hdir, hlast, hdot, hup⟩ := splitLast_eq_ok.mp h
  obtain ⟨k, -, hk⟩ := walk_append (f := f) linkLimit (t.start r) r.names.dropLast
    (List.cons_ne_nil name []) hwalk hdir
  have hsteps : r.steps = r.names.dropLast ++ [name] := by
    rw [Route.steps, hslash, ← eq_dropLast_append hlast]
    rfl
  rw [seek, hcheck, hsteps]
  exact (hk 0).trans (walk_entry ⟨hdot, hup, hsize⟩ hlink)

theorem lookup_entry {f : Bool} (h : t.splitLast r = .ok (directory, some name))
    (hslash : r.slashed = false) (hsize : name.utf8ByteSize ≤ nameLimit)
    (hlink : f = true → ∀ target, t.node? (directory ++ [name]) ≠ some (.link target)) :
    t.lookup f r = match t.node? (directory ++ [name]) with
      | none => .error .noEntry
      | some n => .ok (directory ++ [name], n) := by
  rw [lookup, seek_entry h hslash hsize hlink]
  cases hn : t.node? (directory ++ [name]) with
  | none => rfl
  | some n => simp only [bind, Except.bind, hn]

/-- A name that is no ordinary one leads from a directory to a directory. -/
theorem IsTree.walk_special (ht : t.IsTree) {f : Bool} {k : Nat} {l : Location}
    (hdir : t.node? directory = some .directory) (hname : ¬ Ordinary name)
    (h : t.walk f k directory [name] = .ok (.found l)) : t.node? l = some .directory := by
  rw [walk_cons, move] at h
  by_cases hdot : name = "."
  · simp only [hdot, ↓reduceIte, walk_nil, Except.ok.injEq, Spot.found.injEq] at h
    rw [← h]
    exact hdir
  by_cases hup : name = ".."
  · simp only [hup, String.reduceEq, ↓reduceIte, walk_nil, Except.ok.injEq, Spot.found.injEq] at h
    rw [← h]
    exact ht.dropLast hdir
  have hlong : nameLimit < name.utf8ByteSize :=
    Nat.lt_of_not_le fun hsize => hname ⟨hdot, hup, hsize⟩
  simp [hdot, hup, hlong] at h

theorem IsTree.start (ht : t.IsTree) : t.node? (t.start r) = some .directory := by
  unfold FileTree.start
  split
  · rfl
  · exact ht.here

theorem lookup_eq_ok {f : Bool} {l : Location} {n : Node} :
    t.lookup f r = .ok (l, n) ↔ checkRoute r = .ok () ∧
      t.walk f linkLimit (t.start r) r.steps = .ok (.found l) ∧ t.node? l = some n := by
  rw [lookup, seek]
  rcases hc : checkRoute r with e | ⟨⟩
  · simp [bind, Except.bind]
  rcases hw : t.walk f linkLimit (t.start r) r.steps with e | x
  · simp [bind, Except.bind]
  cases x with
  | vacant d m => simp [bind, Except.bind]
  | found l' =>
    cases hl : t.node? l' with
    | none =>
      simp only [bind, Except.bind, hl, reduceCtorEq, Except.ok.injEq, Spot.found.injEq, false_iff]
      rintro ⟨-, rfl, hn⟩
      rw [hl] at hn
      cases hn
    | some n' =>
      simp only [bind, Except.bind, hl, Except.ok.injEq, Prod.mk.injEq, Spot.found.injEq, true_and]
      constructor
      · rintro ⟨rfl, rfl⟩
        exact ⟨rfl, hl⟩
      · rintro ⟨rfl, hn⟩
        rw [hl] at hn
        exact ⟨rfl, Option.some.inj hn⟩

/-- In a tree what a path names is an entry, unless it is a directory. -/
theorem IsTree.entry_of_lookup (ht : t.IsTree) {l : Location} {n : Node}
    (h : t.lookup false r = .ok (l, n)) (hn : n ≠ .directory) :
    ∃ directory name, t.splitLast r = .ok (directory, some name) ∧ r.slashed = false ∧
      name.utf8ByteSize ≤ nameLimit ∧ l = directory ++ [name] ∧ t.node? l = some n := by
  obtain ⟨hcheck, hwalk, hl⟩ := lookup_eq_ok.mp h
  have hnot : t.node? l ≠ some .directory := by
    rw [hl]
    exact fun he => hn (Option.some.inj he)
  by_cases hslash : r.slashed = true
  · -- A slash at the end asks for a directory.
    rw [Route.steps, if_pos hslash] at hwalk
    obtain ⟨d, k, -, -, hd, hdir⟩ := walk_split _ _ _ (List.cons_ne_nil "." []) hwalk
    exact absurd (ht.walk_special (hdir ht ht.start) (fun h => h.ne_dot rfl) hd) hnot
  rw [Route.steps, if_neg hslash] at hwalk
  rcases hnames : r.names.getLast? with _ | name
  · rw [List.getLast?_eq_none_iff.mp hnames, walk_nil] at hwalk
    cases hwalk
    exact absurd ht.start hnot
  rw [eq_dropLast_append hnames] at hwalk
  obtain ⟨d, k, -, hparent, hd, hdir⟩ := walk_split _ _ _ (List.cons_ne_nil name []) hwalk
  have hdir := hdir ht ht.start
  by_cases hname : Ordinary name
  · have hplace : l = d ++ [name] := by
      rw [walk_entry hname (fun h => absurd h Bool.false_ne_true)] at hd
      split at hd <;> cases hd
      rfl
    exact ⟨d, name, splitLast_eq_ok.mpr ⟨hcheck, hparent, hdir, hnames, hname.ne_dot, hname.ne_up⟩,
      Bool.eq_false_iff.mpr hslash, hname.size_le, hplace, hl⟩
  · exact absurd (ht.walk_special hdir hname hd) hnot

/-- Two routes that differ in their last names lead to entries of one directory. -/
theorem splitLast_sibling {r' : Route} {name' : String}
    (h : t.splitLast r = .ok (directory, some name)) (hcheck : checkRoute r' = .ok ())
    (habs : r'.absolute = r.absolute) (hnames : r'.names = r.names.dropLast ++ [name'])
    (hdot : name' ≠ ".") (hup : name' ≠ "..") : t.splitLast r' = .ok (directory, some name') := by
  obtain ⟨-, hwalk, hdir, -, -, -⟩ := splitLast_eq_ok.mp h
  refine splitLast_eq_ok.mpr ⟨hcheck, ?_, hdir, ?_, hdot, hup⟩
  · rw [hnames, List.dropLast_concat, FileTree.start, habs]
    exact hwalk
  · rw [hnames, List.getLast?_concat]

/-- Trees with the same ways have the same entries. -/
theorem SameWays.splitLast (h : SameWays t t') (hs : t.splitLast r = .ok (directory, some name)) :
    t'.splitLast r = .ok (directory, some name) := by
  obtain ⟨hcheck, hwalk, hdir, hlast, hname⟩ := splitLast_eq_ok.mp hs
  have hdir' := h.node?_eq hdir rfl
  have hstart : t'.start r = t.start r := by
    rw [FileTree.start, FileTree.start, h.here]
  have hend := h.walk (f := true) linkLimit (t.start r) r.names.dropLast
  rw [hwalk] at hend
  refine splitLast_eq_ok.mpr ⟨hcheck, ?_, hdir', hlast, hname⟩
  rw [hstart]
  rcases hw : t'.walk true linkLimit (t.start r) r.names.dropLast with e | x
  · rw [hw] at hend
    cases hend
  rw [hw] at hend
  cases x with
  | found l => exact congrArg (fun l => Except.ok (Spot.found l)) (Eq.symm hend)
  | vacant d m =>
    have hnone := (walk_vacant _ _ _ hw).1
    rw [show d ++ [m] = directory from Eq.symm hend, hdir'] at hnone
    cases hnone

end LintDebt.FileTree
