import LintDebt.Proofs.FileTree.JoinedText
import LintDebt.Proofs.FileTree.Named

/-! # Trees without links

In a tree without links a path leads where its names say. So a path that reaches a directory
reaches what is in it when a name is added, as long as the text stays short enough, and what it
resolves to is the place that it reaches. -/

namespace LintDebt

namespace FileTree

/-- Holds for a tree without links, in which all names are ones that the system admits. -/
structure Linkless (t : FileTree) : Prop extends t.IsTree where
  noLink : ∀ l target, t.node? l ≠ some (.link target)
  names : ∀ l, t.node? l ≠ none → ∀ name ∈ l, IsEntryName name

variable {t : FileTree} {f : Bool} {k : Nat} {p : Path} {l : Location} {name : String} {names : List String}
  {n : Node}

/-- A finite tree can be checked. -/
theorem linkless_iff : t.Linkless ↔ t.IsTree ∧ ∀ l ∈ t.locations,
    (t.node? l matches some (.file _) | some .directory) = true ∧ ∀ name ∈ l, IsEntryName name := by
  constructor
  · intro h
    refine ⟨h.toIsTree, fun k hk => ?_⟩
    have hn := node?_of_mem_locations hk
    refine ⟨?_, h.names k hn⟩
    rcases hnode : t.node? k with _ | (_ | _ | target)
    · exact absurd hnode hn
    · rfl
    · rfl
    · exact absurd hnode (h.noLink k target)
  · rintro ⟨htree, hall⟩
    have hnamed : t.Named := named_iff.mpr ⟨htree, fun k hk => (hall k hk).2⟩
    refine ⟨htree, fun k target hn => ?_, hnamed.names⟩
    by_cases hnil : k = []
    · rw [hnil, node?, if_pos rfl] at hn
      cases hn
    · have hkind := (hall k ((mem_locations_iff hnil).mpr (by rw [hn]; simp))).1
      rw [hn] at hkind
      cases hkind

instance : Decidable t.Linkless := decidable_of_iff _ linkless_iff.symm

theorem mem_childNames : name ∈ t.childNames l ↔ t.node? (l ++ [name]) ≠ none := by
  rw [childNames, List.mem_filterMap]
  constructor
  · rintro ⟨k, hk, h⟩
    split at h
    · next hkl =>
      rw [← hkl.2, ← eq_dropLast_append h]
      exact node?_of_mem_locations hk
    · cases h
  · intro h
    exact ⟨l ++ [name], (mem_locations_iff concat_ne_nil).mpr h, by simp⟩

/-- The place that a name leads to, if it is not a link. -/
def goTo (l : Location) (name : String) : Location :=
  if name = "" ∨ name = "." then l else if name = ".." then l.dropLast else l ++ [name]

theorem goTo_up : goTo l ".." = l.dropLast := by
  simp [goTo]

theorem goTo_name (hempty : name ≠ "") (hdot : name ≠ ".") (hup : name ≠ "..") :
    goTo l name = l ++ [name] := by
  rw [goTo, if_neg (by simp [hempty, hdot]), if_neg hup]

theorem goTo_entry (h : IsEntryName name) : goTo l name = l ++ [name] :=
  goTo_name h.nonempty h.ne_dot h.ne_up

/-- Holds for a path as written that leads to a directory, though it may be too long to be looked for. -/
structure Leads (t : FileTree) (path : String) (l : Location) : Prop where
  nonempty : path ≠ ""
  nonnull : '\x00' ∉ path.toList
  walk : t.walk true linkLimit (t.start (.parse path)) (namesOf path.toList) = .ok (.found l)
  node : t.node? l = some .directory

theorem Linkless.named (ht : t.Linkless) : t.Named := ⟨ht.toIsTree, ht.names⟩

theorem Linkless.entryName (ht : t.Linkless) (hn : t.node? (l ++ [name]) ≠ none) :
    IsEntryName name :=
  ht.named.entryName hn

/-- From a place the names of what is below lead to it. -/
theorem Linkless.walk_below (ht : t.Linkless) (hn : t.node? (l ++ names) ≠ none) :
    t.walk f k l names = .ok (.found (l ++ names)) := by
  obtain ⟨n, hn⟩ := Option.ne_none_iff_exists'.mp hn
  exact ht.named.walk_below hn fun target h => ht.noLink _ target (hn.trans (congrArg some h))

namespace Leads

variable {path : String} (h : t.Leads path l)
include h

/-- A directory is found under its path, whether or not that ends with a slash, unless it is too long. -/
theorem seek : t.seek true (.parse path) =
    if pathLimit < path.utf8ByteSize then .error .nameTooLong else .ok (.found l) := by
  have hsteps : t.walk true linkLimit (t.start (.parse path)) (Route.parse path).steps =
      .ok (.found l) := by
    rw [Route.steps]
    split
    · obtain ⟨k, -, hk⟩ := walk_append (f := true) linkLimit (t.start (.parse path)) _
        (List.cons_ne_nil "." []) h.walk h.node
      exact (hk 0).trans (walk_dot.trans walk_nil)
    · exact h.walk
  rw [FileTree.seek, checkRoute, isEmpty_parse h.nonempty, if_neg Bool.false_ne_true, hsteps]
  change (Except.bind (if pathLimit < path.utf8ByteSize then _ else _) _ : Except OsCode Spot) = _
  split <;> rfl

/-- A walk from a directory through the names of what is below it. -/
theorem walk_below (ht : t.Linkless) (hne : names ≠ []) (hn : t.node? (l ++ names) ≠ none) :
    t.walk f linkLimit (t.start (.parse (joinNames path names))) (namesOf (joinNames path names).toList) =
      .ok (.found (l ++ names)) := by
  have hnames : ∀ name ∈ names, IsName name :=
    fun name hname => (ht.names _ hn name (List.mem_append_right l hname)).toIsName
  obtain ⟨k, -, hk⟩ := walk_append (f := f) linkLimit (t.start (.parse path)) _ hne h.walk h.node
  rw [joinNames, start_joinText t h.nonempty (head?_ofList_joinSlash hnames), ← joinNames,
    namesOf_joinNames hnames]
  exact (hk 0).trans (ht.walk_below hn)

theorem nonnull_joinNames (ht : t.Linkless) (hn : t.node? (l ++ names) ≠ none) :
    '\x00' ∉ (joinNames path names).toList := by
  have hentry : ∀ name ∈ names, IsEntryName name :=
    fun name hname => ht.names _ hn name (List.mem_append_right l hname)
  rw [joinNames, joinText_eq (head?_ofList_joinSlash fun name hname => (hentry name hname).toIsName),
    String.toList_append, List.mem_append, String.toList_ofList]
  rintro (hpath | hnames)
  · have hkept : '\x00' ∈ path.toList := by
      rw [slashed] at hpath
      split at hpath
      · exact hpath
      · rw [String.toList_append, List.mem_append] at hpath
        exact hpath.resolve_right (by decide)
    exact h.nonnull hkept
  · obtain hslash | ⟨name, hname, hnull⟩ := mem_joinSlash hnames
    · exact absurd hslash (by decide)
    · exact (hentry name hname).nonnull hnull

/-- The path of a directory leads to the directories below it when their names are added, and to itself
when none are. -/
theorem below (ht : t.Linkless) (hdir : t.node? (l ++ names) = some .directory) :
    t.Leads (joinNames path names) (l ++ names) := by
  have hn : t.node? (l ++ names) ≠ none := by
    rw [hdir]
    simp
  refine ⟨joinText_ne_empty h.nonempty, h.nonnull_joinNames ht hn, ?_, hdir⟩
  by_cases hnil : names = []
  · subst hnil
    rw [joinNames, start_joinText t h.nonempty (by decide), ← joinNames, namesOf_joinNames (by simp),
      List.append_nil, List.append_nil]
    exact h.walk
  · exact h.walk_below ht hnil hn

/-- A directory is listed with the names in it. -/
theorem list (hsize : path.utf8ByteSize ≤ pathLimit) : t.list path =
    .ok ((t.childNames l).map fun name =>
      (name, t.entryIsDirectory (l ++ [name]) (joinText path name))) := by
  rw [FileTree.list, route_of_eq_ok.mpr ⟨h.nonnull, rfl⟩]
  simp only [bind, Except.bind, lookup_eq, h.seek, if_neg (Nat.not_lt.mpr hsize), h.node]
  rfl

theorem list_of_long (hsize : pathLimit < path.utf8ByteSize) :
    t.list path = .error (.refused .nameTooLong path none) := by
  rw [FileTree.list, route_of_eq_ok.mpr ⟨h.nonnull, rfl⟩]
  simp only [bind, Except.bind, lookup_eq, h.seek, if_pos hsize]
  rfl

end Leads

/-- Without links a directory is one by its kind. -/
theorem Linkless.entryIsDirectory_iff (ht : t.Linkless) {path : String} :
    t.entryIsDirectory l path = true ↔ t.node? l = some .directory := by
  rw [entryIsDirectory]
  rcases hn : t.node? l with _ | (octets | _ | target)
  · simp
  · simp
  · simp
  · exact absurd hn (ht.noLink l target)

/-- Without links a name is gone through, whether or not it is the last one, or the walk stops at
it; and then it has found what is no directory, if anything. -/
theorem Linkless.move_cases (ht : t.Linkless) (hempty : name ≠ "") (f : Bool) (place : Location) :
    (∀ last, t.move f place name last = .go (goTo place name)) ∨
      ∀ last, ∃ r, t.move f place name last = .stop r ∧ ∀ l, r = .ok (.found l) →
        l = goTo place name ∧ last = true ∧ t.node? l ≠ some .directory := by
  by_cases hname : Ordinary name
  · rw [goTo_name hempty hname.ne_dot hname.ne_up]
    simp only [move_of_ordinary hname, enter]
    rcases hn : t.node? (place ++ [name]) with _ | (octets | _ | target)
    · right
      intro last
      refine ⟨_, rfl, fun l hl => ?_⟩
      cases last <;> cases hl
    · right
      intro last
      refine ⟨_, rfl, fun l hl => ?_⟩
      cases last with
      | false => cases hl
      | true =>
        cases hl
        exact ⟨rfl, rfl, by simp [hn]⟩
    · exact Or.inl fun _ => rfl
    · exact absurd hn (ht.noLink _ target)
  by_cases hdot : name = "."
  · left
    intro last
    rw [move, if_pos hdot, goTo, if_pos (Or.inr hdot)]
  by_cases hup : name = ".."
  · left
    intro last
    rw [move, if_neg hdot, if_pos hup, hup, goTo_up]
  · have hlong : nameLimit < name.utf8ByteSize :=
      Nat.lt_of_not_le fun hsize => hname ⟨hdot, hup, hsize⟩
    right
    intro last
    refine ⟨.error .nameTooLong, ?_, fun l hl => by cases hl⟩
    rw [move, if_neg hdot, if_neg hup, if_pos hlong]

/-- A directory that is found is found past names that lead nowhere, too. -/
theorem Linkless.walk_of_normal (ht : t.Linkless) {place : Location}
    (hnames : ∀ name ∈ names, name ≠ "") (hl : t.node? l = some .directory)
    (h : t.walk f k place (names.filter fun name => name ≠ "" ∧ name ≠ ".") = .ok (.found l)) :
    t.walk f k place names = .ok (.found l) := by
  induction names generalizing place with
  | nil => exact h
  | cons name rest ih =>
    obtain ⟨hempty, hrest⟩ := List.forall_mem_cons.mp hnames
    by_cases hdot : name = "."
    · rw [List.filter_cons_of_neg (by simp [hdot])] at h
      rw [hdot, walk_dot]
      exact ih hrest h
    rw [List.filter_cons_of_pos (by simp [hempty, hdot]), walk_cons] at h
    rw [walk_cons]
    rcases ht.move_cases hempty f place with hgo | hstop
    · rw [hgo] at h ⊢
      exact ih hrest h
    · obtain ⟨r, hr, hfound⟩ := hstop (rest.filter fun name => name ≠ "" ∧ name ≠ ".").isEmpty
      rw [hr] at h
      exact absurd hl (hfound l h).2.2

/-- A path as written leads to a directory if the path that it stands for does, though it may be too
long itself. -/
theorem Linkless.leads_of_parse (ht : t.Linkless) {path : String} (hne : path ≠ "")
    (htarget : t.target? (Path.parse path).text = some l) (hl : t.node? l = some .directory) :
    t.Leads path l := by
  obtain ⟨hnull, hseek⟩ := seek_of_target? htarget (by rw [hl]; simp)
  rw [seek_text (Path.proper_parse path)] at hseek
  split at hseek
  · cases hseek
  have hparse := Path.parse_eq path
  refine ⟨hne, fun hmem => ?_, ?_, hl⟩
  · obtain hslash | ⟨name, hname, hnull'⟩ := mem_namesOf hmem
    · exact absurd hslash (by decide)
    by_cases hdot : name = "."
    · rw [hdot] at hnull'
      exact absurd hnull' (by decide)
    · apply nonnull_of_text hnull name _ hnull'
      rw [hparse]
      exact List.mem_filter.mpr ⟨hname, by simp [(isName_of_namesOf hname).nonempty, hdot]⟩
  · rw [← start_parse, hparse] at hseek
    exact ht.walk_of_normal (fun name hname => (isName_of_namesOf hname).nonempty) hl hseek

end FileTree
end LintDebt
