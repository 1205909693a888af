import LintDebt.Proofs.FileTree.Contents
import LintDebt.Proofs.FileTree.Moves

/-! # Paths of entries

What the operations do at a path that names an entry. Everything is said in terms of the entry's
node, so that a caller never walks a path again. In a tree every path to a file that is not a link
names an entry, and keeps naming it while only files come and go. -/

namespace LintDebt.FileTree

/-- Holds for a path that ends with a name in a directory that is there. -/
structure Entry (t : FileTree) (path : String) (directory : Location) (name : String) : Prop where
  null : '\x00' ∉ path.toList
  split : t.splitLast (.parse path) = .ok (directory, some name)
  unslashed : (Route.parse path).slashed = false
  size_le : name.utf8ByteSize ≤ nameLimit

variable {t t' : FileTree} {path path' : String} {directory : Location} {name name' : String}
  {n : Node} {octets new : List UInt8}

theorem lstat_eq_ok : t.lstat path = .ok n ↔
    '\x00' ∉ path.toList ∧ ∃ l, t.lookup false (.parse path) = .ok (l, n) :=
  found_eq_ok

theorem isPresent_eq_true : t.isPresent path = true ↔ ∃ n, t.lstat path = .ok n := by
  rw [isPresent]
  cases t.lstat path <;> simp

/-- A step that does not follow a link ends at it, and does the same as any other step else. -/
theorem move_unfollowed (t : FileTree) (p : Location) (name : String) (last : Bool) :
    t.move false p name last = t.move true p name last ∨
      t.move false p name last = .stop (.ok (.found (p ++ [name]))) ∧ t.node? (p ++ [name]) ≠ none := by
  by_cases hname : Ordinary name
  · rw [move_of_ordinary hname, move_of_ordinary hname, enter, enter]
    cases hn : t.node? (p ++ [name]) with
    | none => exact Or.inl rfl
    | some n =>
      cases n with
      | file octets => exact Or.inl rfl
      | directory => exact Or.inl rfl
      | link target =>
        cases last with
        | false => exact Or.inl rfl
        | true => exact Or.inr ⟨rfl, Option.some_ne_none _⟩
  · exact Or.inl (move_of_not_ordinary hname)

/-- A walk that finds something finds something without following the last link. -/
theorem exists_walk_unfollowed {l : Location} (hl : t.node? l ≠ none) : ∀ k p names,
    t.walk true k p names = .ok (.found l) →
      ∃ l', t.walk false k p names = .ok (.found l') ∧ t.node? l' ≠ none := by
  refine walk_induction (fun k p h => ?_) (fun k p name rest ih ihk h => ?_)
  · rw [walk_nil] at h
    cases h
    exact ⟨l, walk_nil, hl⟩
  · rw [walk_cons] at h
    rcases move_unfollowed t p name rest.isEmpty with hmove | ⟨hmove, hn⟩
    · rw [walk_cons, hmove]
      cases hm : t.move true p name rest.isEmpty with
      | stop r =>
        rw [hm] at h
        exact ⟨l, h, hl⟩
      | go p' =>
        rw [hm] at h
        exact ih p' h
      | follow p' names =>
        rw [hm] at h
        cases k with
        | zero => cases h
        | succ k => exact ihk k p' _ rfl h
    · refine ⟨p ++ [name], ?_, hn⟩
      rw [walk_cons, hmove]

/-- A path that leads to something names something. -/
theorem isPresent_of_stat (h : t.stat path = .ok n) : t.isPresent path = true := by
  obtain ⟨hnull, l, hl⟩ := stat_eq_ok.mp h
  obtain ⟨hcheck, hwalk, hn⟩ := lookup_eq_ok.mp hl
  obtain ⟨l', hwalk', hn'⟩ := exists_walk_unfollowed (by rw [hn]; nofun) _ _ _ hwalk
  obtain ⟨m, hm⟩ := Option.ne_none_iff_exists'.mp hn'
  exact isPresent_eq_true.mpr ⟨m, lstat_eq_ok.mpr ⟨hnull, l', lookup_eq_ok.mpr ⟨hcheck, hwalk', hm⟩⟩⟩

/-- The content of a file does not matter to what is there. -/
theorem isPresent_put_over {l : Location} (hl : l ≠ []) (hn : t.node? l = some (.file octets))
    (h : t.isPresent path = false) : (t.put l (.file new)).isPresent path = false := by
  have hways : SameWays t (t.put l (.file new)) := sameWays_put hl (by rw [way?, hn]; rfl) new
  rw [← Bool.not_eq_true, isPresent_eq_true] at h ⊢
  rintro ⟨m, hm⟩
  obtain ⟨hnull, k, hk⟩ := lstat_eq_ok.mp hm
  obtain ⟨hcheck, hwalk, hm⟩ := lookup_eq_ok.mp hk
  have hseek : (t.put l (.file new)).seek false (.parse path) = .ok (.found k) := by
    rw [seek_eq, hcheck]
    exact hwalk
  obtain ⟨m', hm'⟩ : ∃ m', t.node? k = some m' := by
    rw [node?_put hl] at hm
    split at hm
    · next hkl => exact ⟨_, by rw [hkl, hn]⟩
    · exact ⟨m, hm⟩
  have hseek' := hways.symm.seek_found hseek (by rw [Spot.place, hm']; simp)
  refine h ⟨m', lstat_eq_ok.mpr ⟨hnull, k, ?_⟩⟩
  rw [lookup, hseek']
  simp only [bind, Except.bind, Spot.place, hm']

/-- In a tree a path to a file or to a link names an entry. -/
theorem IsTree.exists_entry (ht : t.IsTree) (h : t.lstat path = .ok n) (hn : n ≠ .directory) :
    ∃ directory name, t.Entry path directory name ∧ t.node? (directory ++ [name]) = some n := by
  obtain ⟨hnull, l, hl⟩ := lstat_eq_ok.mp h
  obtain ⟨directory, name, hsplit, hslash, hsize, rfl, hnode⟩ := ht.entry_of_lookup hl hn
  exact ⟨directory, name, ⟨hnull, hsplit, hslash, hsize⟩, hnode⟩

namespace Entry

theorem directory_eq (h : t.Entry path directory name) : t.node? directory = some .directory :=
  (splitLast_eq_ok.mp h.split).2.2.1

theorem unique (h : t.Entry path directory name) {directory' : Location}
    (h' : t.Entry path directory' name') : directory' = directory ∧ name' = name := by
  have heq := h'.split
  rw [h.split] at heq
  cases heq
  exact ⟨rfl, rfl⟩

theorem of_sameWays (h : t.Entry path directory name) (hways : SameWays t t') :
    t'.Entry path directory name :=
  ⟨h.null, hways.splitLast h.split, h.unslashed, h.size_le⟩

theorem lstat (h : t.Entry path directory name) :
    t.lstat path = match t.node? (directory ++ [name]) with
      | none => .error (.refused .noEntry path none)
      | some n => .ok n := by
  rw [FileTree.lstat, route_of_eq_ok.mpr ⟨h.null, rfl⟩]
  simp only [bind, Except.bind]
  rw [lookup_entry h.split h.unslashed h.size_le (fun hf => absurd hf Bool.false_ne_true)]
  cases t.node? (directory ++ [name]) <;> rfl

theorem lstat_eq_ok (h : t.Entry path directory name) :
    t.lstat path = .ok n ↔ t.node? (directory ++ [name]) = some n := by
  rw [h.lstat]
  cases t.node? (directory ++ [name]) <;> simp

theorem isPresent (h : t.Entry path directory name) :
    t.isPresent path = (t.node? (directory ++ [name])).isSome := by
  rw [FileTree.isPresent, h.lstat]
  cases t.node? (directory ++ [name]) <;> rfl

theorem isPresent_eq_false (h : t.Entry path directory name) :
    t.isPresent path = false ↔ t.node? (directory ++ [name]) = none := by
  rw [h.isPresent, Option.isSome_eq_false_iff, Option.isNone_iff_eq_none]

theorem stat (h : t.Entry path directory name)
    (hn : t.node? (directory ++ [name]) = some (.file octets)) : t.stat path = .ok (.file octets) := by
  refine stat_eq_ok.mpr ⟨h.null, directory ++ [name], ?_⟩
  rw [lookup_entry h.split h.unslashed h.size_le (fun _ target => by rw [hn]; simp), hn]

theorem read (h : t.Entry path directory name)
    (hn : t.node? (directory ++ [name]) = some (.file octets)) : t.read path = .ok octets :=
  read_eq_ok.mpr (h.stat hn)

theorem existsAt (h : t.Entry path directory name)
    (hn : t.node? (directory ++ [name]) = some (.file octets)) : t.existsAt path = .ok true := by
  rw [FileTree.existsAt, h.stat hn]
  rfl

/-- Where the path leads to, unless a link goes on from there. -/
theorem target?_eq (h : t.Entry path directory name)
    (hlink : ∀ target, t.node? (directory ++ [name]) ≠ some (.link target)) :
    t.target? path = some (directory ++ [name]) := by
  rw [target?, route_of_eq_ok.mpr ⟨h.null, rfl⟩]
  simp only [seek_entry h.split h.unslashed h.size_le (fun _ => hlink)]
  cases t.node? (directory ++ [name]) <;> rfl

theorem write (h : t.Entry path directory name)
    (hn : t.node? (directory ++ [name]) = some (.file octets)) :
    t.write path new = .ok (t.put (directory ++ [name]) (.file new)) := by
  obtain ⟨l, -, -, htarget, hwrite⟩ := write_of_read (h.read hn) new
  rw [h.target?_eq (fun target => by rw [hn]; simp)] at htarget
  rw [hwrite, Option.some.inj htarget]

theorem rename (h : t.Entry path directory name) (h' : t.Entry path' directory name')
    (hne : name ≠ name') (hn : t.node? (directory ++ [name]) = some n) (hdir : n ≠ .directory)
    (hover : t.node? (directory ++ [name']) ≠ some .directory) :
    t.rename path path' =
      .ok ((t.erase (directory ++ [name])).put (directory ++ [name']) n) := by
  rw [FileTree.rename, route_of_eq_ok.mpr ⟨h.null, rfl⟩, route_of_eq_ok.mpr ⟨h'.null, rfl⟩]
  simp only [bind, Except.bind]
  rw [renameOn_sibling h.split h'.split hne h.size_le ⟨h.unslashed, h'.unslashed⟩ hn hdir,
    if_neg (Nat.not_lt.mpr h'.size_le), if_neg hover]
  rfl

end Entry

/-- A rename that is not refused moves an entry to the place of another. -/
theorem exists_entries_of_rename (h : t.rename path path' = .ok t')
    (hslash : (Route.parse path).slashed = false) (hslash' : (Route.parse path').slashed = false) :
    ∃ directory name directory' name', t.Entry path directory name ∧
      t.Entry path' directory' name' ∧ t.node? (directory ++ [name]) ≠ none := by
  rw [rename] at h
  obtain ⟨r, hr, h⟩ := bind_eq_ok.mp h
  obtain ⟨r', hr', h⟩ := bind_eq_ok.mp h
  obtain ⟨hnull, rfl⟩ := route_of_eq_ok.mp hr
  obtain ⟨hnull', rfl⟩ := route_of_eq_ok.mp hr'
  rw [refusing, mapError_eq_ok, renameOn] at h
  obtain ⟨⟨d, a⟩, hs, h⟩ := bind_eq_ok.mp h
  obtain ⟨⟨d', b⟩, hs', h⟩ := bind_eq_ok.mp h
  cases a with
  | none => cases h
  | some a =>
    cases b with
    | none => cases h
    | some b =>
      dsimp only at h
      by_cases ha : nameLimit < a.utf8ByteSize
      · rw [if_pos ha] at h
        cases h
      rw [if_neg ha] at h
      cases hn : t.node? (d ++ [a]) with
      | none =>
        rw [hn] at h
        cases h
      | some n =>
        rw [hn] at h
        by_cases hb : nameLimit < b.utf8ByteSize
        · dsimp only at h
          rw [if_pos hb] at h
          cases h
        exact ⟨d, a, d', b, ⟨hnull, hs, hslash, Nat.not_lt.mp ha⟩,
          ⟨hnull', hs', hslash', Nat.not_lt.mp hb⟩, by rw [hn]; simp⟩

/-- The tree without the entry that a path names. -/
def vacate (t : FileTree) (path : String) : FileTree :=
  match t.splitLast (.parse path) with
  | .ok (directory, some name) => t.erase (directory ++ [name])
  | _ => t

variable {t₀ : FileTree} {directory₀ : Location}

theorem Entry.vacate_eq (h : t.Entry path directory name) :
    t.vacate path = t.erase (directory ++ [name]) := by
  rw [vacate, h.split]

/-- A path that names an entry in one tree names one wherever something is found there. -/
theorem Entry.of_present (h₀ : t₀.Entry path directory₀ name) (ht : t.IsTree)
    (hp : t.isPresent path = true) : ∃ directory, t.Entry path directory name := by
  obtain ⟨n, hn⟩ := isPresent_eq_true.mp hp
  obtain ⟨-, l, hl⟩ := FileTree.lstat_eq_ok.mp hn
  obtain ⟨hcheck, hwalk, -⟩ := lookup_eq_ok.mp hl
  obtain ⟨-, -, -, hlast, hdot, hup⟩ := splitLast_eq_ok.mp h₀.split
  have hsteps : (Route.parse path).steps = (Route.parse path).names.dropLast ++ [name] := by
    rw [Route.steps, h₀.unslashed, ← eq_dropLast_append hlast]
    rfl
  rw [hsteps] at hwalk
  obtain ⟨directory, _, -, hparent, -, hdir⟩ := walk_split _ _ _ (List.cons_ne_nil name []) hwalk
  exact ⟨directory, h₀.null, splitLast_eq_ok.mpr ⟨hcheck, hparent, hdir ht ht.start, hlast, hdot, hup⟩,
    h₀.unslashed, h₀.size_le⟩

/-- An entry is found also where more is there. -/
theorem Entry.of_erase {d : Location} (hd : d ≠ []) (h : (t.erase d).Entry path directory name) :
    t.Entry path directory name := by
  obtain ⟨hcheck, hwalk, hdir, hlast⟩ := splitLast_eq_ok.mp h.split
  have hne : directory ≠ d := by
    rintro rfl
    rw [node?_erase hd, if_pos rfl] at hdir
    cases hdir
  rw [node?_erase hd, if_neg hne] at hdir
  exact ⟨h.null, splitLast_eq_ok.mpr ⟨hcheck, walk_of_erase hd _ _ _ hwalk, hdir, hlast⟩,
    h.unslashed, h.size_le⟩

/-- What is neither at a file nor below it is found also without the file. -/
theorem Entry.erase_file {d : Location} {octets : List UInt8} (hd : d ≠ [])
    (hn : t.node? d = some (.file octets)) (h : t.Entry path directory name) :
    (t.erase d).Entry path directory name := by
  obtain ⟨hcheck, hwalk, hdir, hlast⟩ := splitLast_eq_ok.mp h.split
  have hne : directory ≠ d := by
    rintro rfl
    rw [hn] at hdir
    cases hdir
  have hwalk' : (t.erase d).walk true linkLimit ((t.erase d).start (.parse path))
      (Route.parse path).names.dropLast = .ok (.found directory) := by
    rcases walk_erase_or hd (by rw [hn]; simp) _ _ _ hwalk with hw | hw | ⟨_, _, _, hlink, -⟩
    · exact hw
    · exact absurd hw hne
    · rw [hn] at hlink
      cases hlink
  refine ⟨h.null, splitLast_eq_ok.mpr ⟨hcheck, hwalk', ?_, hlast⟩, h.unslashed, h.size_le⟩
  rw [node?_erase hd, if_neg hne, hdir]

/-- What is found without an entry is found with it. -/
theorem stat_of_vacate {path' : String} (h : (t.vacate path).stat path' = .ok n) :
    t.stat path' = .ok n := by
  rw [vacate] at h
  split at h
  · next d m _ =>
    obtain ⟨hnull, l, hl⟩ := stat_eq_ok.mp h
    obtain ⟨hcheck, hwalk, hnode⟩ := lookup_eq_ok.mp hl
    have hd : d ++ [m] ≠ [] := concat_ne_nil
    rw [node?_erase hd] at hnode
    split at hnode
    · cases hnode
    · exact stat_eq_ok.mpr ⟨hnull, l, lookup_eq_ok.mpr ⟨hcheck, walk_of_erase hd _ _ _ hwalk, hnode⟩⟩
  · exact h

theorem vacate_vacate : (t.vacate path).vacate path = t.vacate path := by
  rcases hs : t.splitLast (.parse path) with e | ⟨d, m | m⟩
  · have hself : t.vacate path = t := by rw [vacate, hs]
    rw [hself, hself]
  · have hself : t.vacate path = t := by rw [vacate, hs]
    rw [hself, hself]
  have hd : d ++ [m] ≠ [] := concat_ne_nil
  have hv : t.vacate path = t.erase (d ++ [m]) := by rw [vacate, hs]
  rw [hv, vacate]
  split
  · next d' m' hs' =>
    obtain ⟨hcheck, hwalk, hdir, hlast⟩ := splitLast_eq_ok.mp hs'
    rw [node?_erase hd] at hdir
    split at hdir
    · cases hdir
    have hsame := splitLast_eq_ok.mpr ⟨hcheck, walk_of_erase hd _ _ _ hwalk, hdir, hlast⟩
    rw [hs] at hsame
    cases hsame
    exact erase_eq_self hd (by rw [node?_erase hd, if_pos rfl])
  · rfl

end LintDebt.FileTree
