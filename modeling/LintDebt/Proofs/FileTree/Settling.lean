import LintDebt.Proofs.FileTree.Linkless

/-! # What paths resolve to where there are no links

A walk without links goes up and down by the names alone, and so does a resolution, which keeps `..`
in a relative path for as long as it leads up from the start. Both come to the same place. -/

namespace LintDebt.FileTree

variable {t : FileTree} {f : Bool} {k : Nat} {p l : Location} {names : List String} {name : String}
  {q : Path}

theorem collapse_eq (names : List String) : collapse names = names.foldl goTo [] := rfl

/-- Without links a walk goes where the names lead. -/
theorem Linkless.eq_of_walk (ht : t.Linkless) (hnames : ∀ name ∈ names, name ≠ "")
    (h : t.walk f k p names = .ok (.found l)) : names.foldl goTo p = l := by
  induction names generalizing p with
  | nil =>
    rw [walk_nil] at h
    cases h
    rfl
  | cons name rest ih =>
    obtain ⟨hempty, hrest⟩ := List.forall_mem_cons.mp hnames
    rw [walk_cons] at h
    rcases ht.move_cases hempty f p with hgo | hstop
    · rw [hgo] at h
      exact ih hrest h
    · obtain ⟨r, hr, hfound⟩ := hstop rest.isEmpty
      rw [hr] at h
      obtain ⟨rfl, hlast, -⟩ := hfound l h
      rw [List.isEmpty_iff.mp hlast]
      rfl

/-- The names of a place lead to it. -/
theorem Named.foldl_goTo (ht : t.Named) (h : t.node? l ≠ none) : l.foldl goTo [] = l := by
  have hall := ht.names l h
  clear h
  have happend : ∀ p : Location, l.foldl goTo p = p ++ l := by
    induction l with
    | nil => simp
    | cons name rest ih =>
      intro p
      obtain ⟨hname, hrest⟩ := List.forall_mem_cons.mp hall
      rw [List.foldl_cons, goTo_entry hname, ih hrest]
      simp
  exact happend []

/-- One step of a resolution, if it does not meet a link. -/
def stepUp (path : Path) (name : String) : Path :=
  if name = "" ∨ name = "." then path
  else if name = ".." then path.up
  else { path with names := path.names ++ [name] }

theorem Linkless.lstat_ne_link (ht : t.Linkless) (path target : String) :
    t.lstat path ≠ .ok (.link target) := by
  intro h
  obtain ⟨-, l, hlookup⟩ := lstat_eq_ok.mp h
  exact ht.noLink l target (lookup_eq_ok.mp hlookup).2.2

/-- Without links a resolution only applies its steps. -/
theorem Linkless.climb_eq (ht : t.Linkless) (onLink : Links → Path → List String → Climb)
    (links : Links) (path : Path) :
    t.climb onLink links path names = ⟨links, names.foldl stepUp path, .whole⟩ := by
  induction names generalizing path with
  | nil => rfl
  | cons name rest ih =>
    rw [climb, List.foldl_cons]
    by_cases hskip : name = "" ∨ name = "."
    · rw [if_pos hskip, ih, stepUp, if_pos hskip]
    by_cases hup : name = ".."
    · rw [if_neg hskip, if_pos hup, ih, stepUp, if_neg hskip, if_pos hup]
    rw [if_neg hskip, if_neg hup, stepUp, if_neg hskip, if_neg hup]
    dsimp only
    split
    · next target hlink => exact absurd hlink (ht.lstat_ne_link _ target)
    · exact ih _

/-- Holds for a path without names that lead nowhere, which goes up from its start only if that can
be moved. -/
def Settled (q : Path) : Prop :=
  ∀ name ∈ q.names, name ≠ "" ∧ name ≠ "." ∧ (q.root ≠ .relative → name ≠ "..")

/-- The place that the names of a path lead to. -/
def place (t : FileTree) (q : Path) : Location := q.names.foldl goTo (t.origin q)

theorem place_append : t.place ⟨q.root, q.names ++ [name]⟩ = goTo (t.place q) name := by
  simp [place, origin]

theorem Settled.append (hq : Settled q)
    (hname : name ≠ "" ∧ name ≠ "." ∧ (q.root ≠ .relative → name ≠ "..")) :
    Settled ⟨q.root, q.names ++ [name]⟩ := by
  intro m hm
  rcases List.mem_append.mp hm with hm | hm
  · exact hq m hm
  · rw [List.mem_singleton.mp hm]
    exact hname

theorem Settled.up (hq : Settled q) : Settled q.up := by
  unfold Path.up
  split
  · next hrelative => exact hq.append ⟨by decide, by decide, fun h => absurd hrelative.1 h⟩
  · exact fun m hm => hq m (List.dropLast_subset _ hm)

/-- One level up is the directory above. -/
theorem Settled.place_up (hq : Settled q) : t.place q.up = (t.place q).dropLast := by
  unfold Path.up
  split
  · exact place_append.trans goTo_up
  next hkept =>
  rcases List.eq_nil_or_concat q.names with hnil | ⟨above, last, hnames⟩
  · have hroot : q.root ≠ .relative := fun h => hkept ⟨h, Or.inl hnil⟩
    simp [place, origin, Path.parent, hnil, hroot]
  · have hlast := hq last (by simp [hnames])
    have hup : last ≠ ".." := by
      intro heq
      by_cases hroot : q.root = .relative
      · exact hkept ⟨hroot, Or.inr (by simp [hnames, heq])⟩
      · exact hlast.2.2 hroot heq
    simp [place, origin, Path.parent, hnames, goTo_name hlast.1 hlast.2.1 hup]

theorem stepUp_root : (stepUp q name).root = q.root := by
  unfold stepUp
  split
  · rfl
  split
  · unfold Path.up
    split <;> rfl
  · rfl

/-- A step keeps a path settled, and leads where its name leads. -/
theorem Settled.stepUp (t : FileTree) (hq : Settled q) (name : String) :
    Settled (stepUp q name) ∧ t.place (FileTree.stepUp q name) = goTo (t.place q) name := by
  unfold FileTree.stepUp
  by_cases hskip : name = "" ∨ name = "."
  · rw [if_pos hskip, goTo, if_pos hskip]
    exact ⟨hq, rfl⟩
  by_cases hup : name = ".."
  · rw [if_neg hskip, if_pos hup, hup, goTo_up]
    exact ⟨hq.up, hq.place_up⟩
  · rw [if_neg hskip, if_neg hup]
    obtain ⟨hempty, hdot⟩ := not_or.mp hskip
    exact ⟨hq.append ⟨hempty, hdot, fun _ => hup⟩, place_append⟩

theorem Settled.foldl_stepUp (t : FileTree) (hq : Settled q) (names : List String) :
    Settled (names.foldl FileTree.stepUp q) ∧
    (names.foldl FileTree.stepUp q).root = q.root ∧
    t.place (names.foldl FileTree.stepUp q) = names.foldl goTo (t.place q) := by
  induction names generalizing q with
  | nil => exact ⟨hq, rfl, rfl⟩
  | cons name rest ih =>
    obtain ⟨hstep, hplace⟩ := hq.stepUp t name
    obtain ⟨hsettled, hroot, hrest⟩ := ih hstep
    refine ⟨hsettled, hroot.trans stepUp_root, ?_⟩
    rw [List.foldl_cons, List.foldl_cons, hrest, hplace]

/-- Without links a resolution ends at the end of its path. -/
theorem Linkless.ascend_eq (ht : t.Linkless) (p : Path) :
    t.ascend p = ⟨[], p.names.foldl stepUp p.origin, .whole⟩ := by
  rw [ascend, depthLimit, climbWithin, ht.climb_eq]

/-- Without links a path resolves to the place that its names lead to. -/
theorem Linkless.absolute_ascend (ht : t.Linkless) (p : Path) :
    t.absolute (t.ascend p).path = .ofLocation (t.place p) := by
  have hstart : Settled p.origin := by
    unfold Path.origin
    split <;> exact nofun
  obtain ⟨-, hroot, hplace⟩ := hstart.foldl_stepUp t p.names
  -- A relative path is collapsed together with the place that it starts from.
  have hhere : t.here.foldl goTo [] = t.here :=
    ht.named.foldl_goTo (by rw [ht.here]; simp)
  rw [ht.ascend_eq]
  generalize p.names.foldl stepUp p.origin = q at hroot hplace
  obtain ⟨root, names⟩ := q
  obtain ⟨proot, pnames⟩ := p
  cases proot with
  | relative =>
    obtain rfl : root = .relative := hroot
    have hend : names.foldl goTo t.here = pnames.foldl goTo t.here := hplace
    rw [absolute, collapse_eq, List.foldl_append, hhere, hend]
    rfl
  | absolute | doubled =>
    obtain rfl : root = .absolute := hroot
    have hend : names.foldl goTo [] = pnames.foldl goTo [] := hplace
    exact congrArg Path.ofLocation hend

/-- Names that lead nowhere do not count. -/
theorem place_normal (p : Path) : t.place p.normal = t.place p := by
  have hskip : ∀ (names : List String) (l : Location),
      (names.filter fun name => name ≠ "" ∧ name ≠ ".").foldl goTo l = names.foldl goTo l := by
    intro names
    induction names with
    | nil => exact fun _ => rfl
    | cons name rest ih =>
      intro l
      by_cases hkept : name ≠ "" ∧ name ≠ "."
      · rw [List.filter_cons_of_pos (by simpa using hkept)]
        exact ih _
      · have hnowhere : name = "" ∨ name = "." := by
          by_contra hno
          exact hkept (not_or.mp hno)
        rw [List.filter_cons_of_neg (by simpa using hkept), ih, List.foldl_cons, goTo,
          if_pos hnowhere]
  exact hskip p.names (t.origin p)

section Linkless

variable (ht : t.Linkless) {n : Node} (hn : t.node? l = some n)
include ht hn

theorem Linkless.stat_place : t.stat (Path.ofLocation l).text =
    if pathLimit < (Path.ofLocation l).text.utf8ByteSize
      then .error (.refused .nameTooLong (Path.ofLocation l).text none)
    else .ok n :=
  ht.named.stat_place hn fun target h => ht.noLink _ target (hn.trans (congrArg some h))

/-- Whether a file stands at a place is known unless the path of the place is too long. -/
theorem Linkless.isFile_place {known : Bool} : t.isFile (Path.ofLocation l).text = .ok known ↔
    (Path.ofLocation l).text.utf8ByteSize ≤ pathLimit ∧
      (known = true ↔ ∃ octets, n = .file octets) := by
  rw [isFile, ht.stat_place hn]
  by_cases hlong : pathLimit < (Path.ofLocation l).text.utf8ByteSize
  · rw [if_pos hlong]
    constructor
    · nofun
    · exact fun h => absurd hlong (Nat.not_lt.mpr h.1)
  · rw [if_neg hlong]
    cases n <;> cases known <;> simp [Except.map, holdsAt, Nat.not_lt.mp hlong]

theorem Linkless.exists_isFile (hsize : (Path.ofLocation l).text.utf8ByteSize ≤ pathLimit) :
    ∃ known, t.isFile (Path.ofLocation l).text = .ok known := by
  rw [isFile, ht.stat_place hn, if_neg (Nat.not_lt.mpr hsize)]
  exact ⟨_, rfl⟩

end Linkless

/-- Without links a path to something resolves to its place. -/
theorem Linkless.resolve_eq (ht : t.Linkless) {p : Path}
    (hnonnull : ∀ name ∈ p.names, '\x00' ∉ name.toList) (hn : t.node? (t.place p) ≠ none) :
    t.resolve p = .ok (.ofLocation (t.place p)) := by
  obtain ⟨n, hn⟩ := Option.ne_none_iff_exists'.mp hn
  have hnull : ¬ p.names.any (·.toList.contains '\x00') = true := by
    simpa using hnonnull
  have hwhole : (t.ascend p).ending ≠ .tooDeep := by
    rw [ht.ascend_eq]
    nofun
  rw [resolve, if_neg hnull]
  dsimp only
  rw [if_neg hwhole, ht.absolute_ascend, ht.stat_place hn]
  by_cases hlong : pathLimit < (Path.ofLocation (t.place p)).text.utf8ByteSize
  · rw [if_pos hlong]
  · rw [if_neg hlong]

end LintDebt.FileTree
