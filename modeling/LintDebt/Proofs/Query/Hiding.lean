import LintDebt.Proofs.FileTree.EntryPaths
import LintDebt.Proofs.Query.HiddenPath

/-! # Hiding a list that is a file

The list and its hidden path are two entries of one directory. From a tree in which nothing stands
at the hidden path the list goes there and comes back, whatever else happened to the tree in
between. The names on the way to the list may be links; only its own entry may not. -/

namespace LintDebt.Query

open FileTree

variable {t t' : FileTree} {list hidden : Path} {directory : Location} {name : String}
  {octets : List UInt8}

/-- The list is a file in a tree. -/
structure Standing (t : FileTree) (list : Path) (octets : List UInt8) : Prop where
  tree : t.IsTree
  list : t.lstat list.text = .ok (.file octets)

/-- The list is at its place, and nothing is at its hidden path. -/
structure InPlace (t : FileTree) (list hidden : Path) (octets : List UInt8) : Prop
    extends Standing t list octets where
  hidden : t.isPresent hidden.text = false

/-- The list is at its hidden path, and nothing is at its place. -/
structure OutOfSight (t : FileTree) (list hidden : Path) (octets : List UInt8) : Prop where
  tree : t.IsTree
  list : t.isPresent list.text = false
  hidden : t.lstat hidden.text = .ok (.file octets)

instance : Decidable (InPlace t list hidden octets) :=
  decidable_of_iff (t.IsTree ∧ t.lstat list.text = .ok (.file octets) ∧
    t.isPresent hidden.text = false) ⟨fun h => ⟨⟨h.1, h.2.1⟩, h.2.2⟩, fun h => ⟨h.tree, h.list, h.hidden⟩⟩

theorem ne_hidden_name : name ≠ name ++ hiddenSuffix := by
  intro h
  have hlen := congrArg String.length h
  rw [String.length_append] at hlen
  have : hiddenSuffix.length = 12 := rfl
  omega

theorem concat_ne_hidden : directory ++ [name] ≠ directory ++ [name ++ hiddenSuffix] := by
  simpa using ne_hidden_name

/-- A path that names an entry has a hidden path. -/
theorem exists_hiddenPath (h : t.Entry list.text directory name) :
    ∃ hidden, hiddenPath list = .ok hidden := by
  rw [hiddenPath]
  cases hname : list.name? with
  | some last => exact ⟨_, rfl⟩
  | none =>
    obtain ⟨-, -, -, hlast, hdot, -⟩ := splitLast_eq_ok.mp h.split
    obtain ⟨root, names⟩ := list
    obtain rfl : names = [] := List.getLast?_eq_none_iff.mp hname
    cases root with
    | relative => exact absurd (Option.some.inj hlast).symm hdot
    | absolute => cases hlast
    | doubled => cases hlast

/-- The hidden path is an entry beside that of the list, wherever it is an entry at all. -/
theorem entry_of_hidden {t₀ : FileTree} {directory₀ : Location} {name' : String}
    (h : t₀.Entry list.text directory₀ name) (hhidden : hiddenPath list = .ok hidden)
    (h' : t.Entry hidden.text directory name') :
    name' = name ++ hiddenSuffix ∧ t.Entry list.text directory name := by
  obtain ⟨hcheck, -, -, hlast, hdot, hup⟩ := splitLast_eq_ok.mp h.split
  obtain ⟨habs, hnames⟩ := parse_hiddenPath hhidden h.unslashed hlast
  obtain ⟨-, hwalk, hdir, hlast', -, -⟩ := splitLast_eq_ok.mp h'.split
  rw [hnames, List.getLast?_concat] at hlast'
  refine ⟨(Option.some.inj hlast').symm, h.null, ?_, h.unslashed, h.size_le⟩
  refine splitLast_sibling h'.split hcheck habs.symm ?_ hdot hup
  rw [hnames, List.dropLast_concat]
  exact eq_dropLast_append hlast

/-- And it is one wherever the list is, once it is one anywhere. -/
theorem hidden_of_entry {t₀ : FileTree} {directory₀ : Location}
    (h₀ : t₀.Entry hidden.text directory₀ (name ++ hiddenSuffix))
    (hhidden : hiddenPath list = .ok hidden) (h : t.Entry list.text directory name) :
    t.Entry hidden.text directory (name ++ hiddenSuffix) := by
  obtain ⟨-, -, -, hlast, -, -⟩ := splitLast_eq_ok.mp h.split
  obtain ⟨hcheck, -, -, -, hdot, hup⟩ := splitLast_eq_ok.mp h₀.split
  obtain ⟨habs, hnames⟩ := parse_hiddenPath hhidden h.unslashed hlast
  exact ⟨h₀.null, splitLast_sibling h.split hcheck habs hnames hdot hup, h₀.unslashed, h₀.size_le⟩

/-- What moves the list out of sight moves it to the entry beside its own. -/
theorem entry_hidden_of_rename (h : t.Entry list.text directory name)
    (hhidden : hiddenPath list = .ok hidden) (haway : t.rename list.text hidden.text = .ok t') :
    t.Entry hidden.text directory (name ++ hiddenSuffix) := by
  obtain ⟨_, _, _, _, -, h', -⟩ :=
    exists_entries_of_rename haway h.unslashed (unslashed_hiddenPath hhidden)
  obtain ⟨rfl, hlist⟩ := entry_of_hidden h hhidden h'
  obtain ⟨rfl, -⟩ := h.unique hlist
  exact h'

/-- A list that is no directory takes the place of what stood at its hidden path. -/
theorem eq_of_rename_hidden {n : Node} (h : t.Entry list.text directory name)
    (hhidden : hiddenPath list = .ok hidden) (hn : t.node? (directory ++ [name]) = some n)
    (hdir : n ≠ .directory) (haway : t.rename list.text hidden.text = .ok t') :
    t.node? (directory ++ [name ++ hiddenSuffix]) ≠ some .directory ∧
      t' = (t.erase (directory ++ [name])).put (directory ++ [name ++ hiddenSuffix]) n := by
  have h' := entry_hidden_of_rename h hhidden haway
  have hover : t.node? (directory ++ [name ++ hiddenSuffix]) ≠ some .directory := by
    intro hd
    rw [FileTree.rename, route_of_eq_ok.mpr ⟨h.null, rfl⟩, route_of_eq_ok.mpr ⟨h'.null, rfl⟩] at haway
    simp only [bind, Except.bind] at haway
    rw [renameOn_sibling h.split h'.split ne_hidden_name h.size_le ⟨h.unslashed, h'.unslashed⟩ hn
      hdir, if_neg (Nat.not_lt.mpr h'.size_le), if_pos hd] at haway
    cases haway
  rw [h.rename h' ne_hidden_name hn hdir hover] at haway
  exact ⟨hover, (Except.ok.inj haway).symm⟩

section

variable (h : t.Entry list.text directory name)
  (h' : t.Entry hidden.text directory (name ++ hiddenSuffix))
include h h'

theorem inPlace_iff : InPlace t list hidden octets ↔
    t.IsTree ∧ t.node? (directory ++ [name]) = some (.file octets) ∧
      t.node? (directory ++ [name ++ hiddenSuffix]) = none := by
  rw [← h.lstat_eq_ok, ← h'.isPresent_eq_false]
  exact ⟨fun h => ⟨h.tree, h.list, h.hidden⟩, fun h => ⟨⟨h.1, h.2.1⟩, h.2.2⟩⟩

theorem outOfSight_iff : OutOfSight t list hidden octets ↔
    t.IsTree ∧ t.node? (directory ++ [name]) = none ∧
      t.node? (directory ++ [name ++ hiddenSuffix]) = some (.file octets) := by
  rw [← h.isPresent_eq_false, ← h'.lstat_eq_ok]
  exact ⟨fun h => ⟨h.tree, h.list, h.hidden⟩, fun h => ⟨h.1, h.2.1, h.2.2⟩⟩

end

/-- A file that moves to a vacant name in its directory leaves a tree with the same ways. -/
theorem moved_aside {name' : String} (hne : name ≠ name') (ht : t.IsTree)
    (hdir : t.node? directory = some .directory)
    (hn : t.node? (directory ++ [name]) = some (.file octets))
    (hvacant : t.node? (directory ++ [name']) = none) :
    let t' := (t.erase (directory ++ [name])).put (directory ++ [name']) (.file octets)
    SameWays t t' ∧ t'.IsTree ∧ t'.node? (directory ++ [name]) = none ∧
      t'.node? (directory ++ [name']) = some (.file octets) := by
  have hs : directory ++ [name] ≠ [] := concat_ne_nil
  have hd : directory ++ [name'] ≠ [] := concat_ne_nil
  have hsd : directory ++ [name] ≠ directory ++ [name'] := by simpa using hne
  have hself : directory ≠ directory ++ [name] := by simp
  have hvacant' : (t.erase (directory ++ [name])).node? (directory ++ [name']) = none := by
    rw [node?_erase hs, if_neg hsd.symm, hvacant]
  refine ⟨?_, ?_, ?_, ?_⟩
  · refine (sameWays_erase hs ?_).trans (sameWays_put hd ?_ octets)
    · rw [way?, hn]
      rfl
    · rw [way?, hvacant']
      rfl
  · refine (ht.erase hs (by rw [hn]; simp)).put ?_ ?_
    · rw [node?_erase hs, if_neg hself, hdir]
    · rw [hvacant']
      simp
  · rw [node?_put hd, if_neg hsd, node?_erase hs, if_pos rfl]
  · rw [node?_put hd, if_pos rfl]

/-- The list goes out of sight, unless the system takes its hidden path for too long. -/
theorem InPlace.outOfSight (h : InPlace t list hidden octets) (hhidden : hiddenPath list = .ok hidden)
    (haway : t.rename list.text hidden.text = .ok t') :
    OutOfSight t' list hidden octets ∧ SameWays t t' := by
  obtain ⟨directory, name, hentry, -⟩ := h.tree.exists_entry h.list nofun
  have hentry' := entry_hidden_of_rename hentry hhidden haway
  obtain ⟨ht, hn, hvacant⟩ := (inPlace_iff hentry hentry').mp h
  rw [hentry.rename hentry' ne_hidden_name hn nofun (by rw [hvacant]; simp)] at haway
  cases haway
  obtain ⟨hways, ht', hn', hd'⟩ := moved_aside ne_hidden_name ht hentry.directory_eq hn hvacant
  exact ⟨(outOfSight_iff (hentry.of_sameWays hways) (hentry'.of_sameWays hways)).mpr ⟨ht', hn', hd'⟩,
    hways⟩

/-- The list comes back, whatever else happened while it was out of sight. -/
theorem OutOfSight.inPlace {t₀ : FileTree} {directory₀ : Location}
    (h : OutOfSight t list hidden octets) (h₀ : t₀.Entry list.text directory₀ name)
    (hhidden : hiddenPath list = .ok hidden) :
    ∃ t', t.rename hidden.text list.text = .ok t' ∧ InPlace t' list hidden octets ∧
      SameWays t t' := by
  obtain ⟨directory, _, hentry', -⟩ := h.tree.exists_entry h.hidden nofun
  obtain ⟨rfl, hentry⟩ := entry_of_hidden h₀ hhidden hentry'
  obtain ⟨ht, hvacant, hn⟩ := (outOfSight_iff hentry hentry').mp h
  refine ⟨_, hentry'.rename hentry ne_hidden_name.symm hn nofun (by rw [hvacant]; simp), ?_⟩
  obtain ⟨hways, ht', hd', hn'⟩ :=
    moved_aside ne_hidden_name.symm ht hentry.directory_eq hn hvacant
  exact ⟨(inPlace_iff (hentry.of_sameWays hways) (hentry'.of_sameWays hways)).mpr ⟨ht', hn', hd'⟩,
    hways⟩

/-- A list that is a file can be written, and nothing new appears anywhere. -/
theorem Standing.write (h : Standing t list octets) (new : List UInt8) :
    ∃ t', t.write list.text new = .ok t' ∧ Standing t' list new ∧
      ∀ path, t.isPresent path = false → t'.isPresent path = false := by
  obtain ⟨directory, name, hentry, hn⟩ := h.tree.exists_entry h.list nofun
  have hways : SameWays t (t.put (directory ++ [name]) (.file new)) :=
    sameWays_put concat_ne_nil (by rw [way?, hn]; rfl) new
  refine ⟨_, hentry.write hn, ⟨h.tree.put_over concat_ne_nil hn, ?_⟩,
    fun _ => isPresent_put_over concat_ne_nil hn⟩
  rw [(hentry.of_sameWays hways).lstat_eq_ok, node?_put concat_ne_nil, if_pos rfl]

/-- A write to a file that is elsewhere leaves the list as it is. -/
theorem Standing.rewritten {path : String} (h : Standing t list octets)
    (hpath : t.target? path ≠ t.target? list.text) (hw : Rewritten t path t') :
    Standing t' list octets ∧ SameWays t t' ∧
      ∀ path, t.isPresent path = false → t'.isPresent path = false := by
  rcases hw with rfl | ⟨old, new, hread, hwrite⟩
  · exact ⟨h, SameWays.refl _, fun _ hp => hp⟩
  obtain ⟨directory, name, hentry, hn⟩ := h.tree.exists_entry h.list nofun
  obtain ⟨l, hl, hold, htarget, hput⟩ := write_of_read hread new
  rw [hput] at hwrite
  cases hwrite
  rw [htarget, hentry.target?_eq (fun target => by rw [hn]; simp)] at hpath
  have hne : directory ++ [name] ≠ l := fun he => hpath (congrArg some he.symm)
  have hways : SameWays t (t.put l (.file new)) := sameWays_put hl (by rw [way?, hold]; rfl) new
  refine ⟨⟨h.tree.put_over hl hold, ?_⟩, hways, fun _ => isPresent_put_over hl hold⟩
  rw [(hentry.of_sameWays hways).lstat_eq_ok, node?_put hl, if_neg hne, hn]

theorem InPlace.write {new : List UInt8} (h : InPlace t list hidden octets)
    (hw : t.write list.text new = .ok t') : InPlace t' list hidden new := by
  obtain ⟨_, hw', hstanding, hkeep⟩ := h.toStanding.write new
  rw [hw'] at hw
  cases hw
  exact ⟨hstanding, hkeep _ h.hidden⟩

end LintDebt.Query
