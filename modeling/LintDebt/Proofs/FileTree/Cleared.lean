import LintDebt.Proofs.FileTree.Arrivals

/-! # What a resolution leaves behind

A resolution that comes to the end of its path leaves a path that goes up first, if at all, and then
through names of which the system said that they are no links. If that path is short enough for the
system to have looked at all of it, and a file is found at it, then no link is on it: it is the path of
the file's own place. Nothing is said here about which file that is. -/

namespace LintDebt.FileTree

/-- Holds for a name that a resolution keeps. -/
structure IsStep (name : String) : Prop extends IsName name where
  ne_dot : name ≠ "."
  ne_up : name ≠ ".."

/-- Holds for a path that goes up first, and then through names that are not known to be links. -/
structure Clear (t : FileTree) (q : Path) : Prop where
  root : q.root ≠ .doubled
  shape : ∃ ups rest, q.names = ups ++ rest ∧ (∀ name ∈ ups, q.root = .relative ∧ name = "..") ∧
    ∀ name ∈ rest, IsStep name
  noLink : ∀ above name, above ++ [name] <+: q.names → name ≠ ".." →
    ∀ target, t.lstat (Path.mk q.root (above ++ [name])).text ≠ .ok (.link target)

variable {t : FileTree} {k : Nat} {onLink : Links → Path → List String → Climb} {links : Links}
  {p q path : Path} {place base l : Location} {name : String} {names rest : List String} {n : Node}

namespace Clear

theorem start_relative (t : FileTree) : t.Clear ⟨.relative, []⟩ :=
  ⟨nofun, ⟨[], [], rfl, nofun, nofun⟩, fun above name h => by simp at h⟩

theorem start_absolute (t : FileTree) : t.Clear ⟨.absolute, []⟩ :=
  ⟨nofun, ⟨[], [], rfl, nofun, nofun⟩, fun above name h => by simp at h⟩

theorem append (h : t.Clear q) (hname : IsStep name)
    (hlink : ∀ target, t.lstat (Path.mk q.root (q.names ++ [name])).text ≠ .ok (.link target)) :
    t.Clear ⟨q.root, q.names ++ [name]⟩ := by
  obtain ⟨ups, rest, hnames, hups, hrest⟩ := h.shape
  refine ⟨h.root, ⟨ups, rest ++ [name], ?_, hups, ?_⟩, ?_⟩
  · rw [hnames, List.append_assoc]
  · intro other hother
    rcases List.mem_append.mp hother with hother | hother
    · exact hrest other hother
    · rwa [List.mem_singleton.mp hother]
  · intro above last hbegin hlast
    rcases List.prefix_concat_iff.mp hbegin with hwhole | hbegin
    · rw [hwhole]
      exact hlink
    · exact h.noLink above last hbegin hlast

theorem up (h : t.Clear q) : t.Clear q.up := by
  obtain ⟨ups, rest, hnames, hups, hrest⟩ := h.shape
  unfold Path.up
  split
  · next hrelative =>
    -- Only the names that go up first can end in one that goes up.
    have hnil : rest = [] := by
      rcases List.eq_nil_or_concat' rest with hnil | ⟨above, last, rfl⟩
      · exact hnil
      · rcases hrelative.2 with hempty | hlast
        · simp [hnames] at hempty
        · rw [hnames, ← List.append_assoc, List.getLast?_concat] at hlast
          exact absurd (Option.some.inj hlast) (hrest last (by simp)).ne_up
    refine ⟨h.root, ⟨ups ++ [".."], [], ?_, ?_, nofun⟩, ?_⟩
    · rw [hnames, hnil, List.append_nil, List.append_nil]
    · intro name hname
      rcases List.mem_append.mp hname with hname | hname
      · exact hups name hname
      · exact ⟨hrelative.1, List.mem_singleton.mp hname⟩
    · intro above last hbegin hlast
      rcases List.prefix_concat_iff.mp hbegin with hwhole | hbegin
      · exact absurd (List.append_inj_right' hwhole rfl) (by simpa using hlast)
      · exact h.noLink above last hbegin hlast
  next hkept =>
  refine ⟨h.root, ⟨ups, rest.dropLast, ?_, hups, fun name hname => hrest name (List.dropLast_subset _ hname)⟩,
    fun above last hbegin => h.noLink above last (hbegin.trans (List.dropLast_prefix _))⟩
  show q.names.dropLast = ups ++ rest.dropLast
  rcases List.eq_nil_or_concat' rest with hnil | ⟨above, last, hlast⟩
  · rcases List.eq_nil_or_concat' ups with hnone | ⟨before, last, hlast⟩
    · simp [hnames, hnil, hnone]
    · obtain ⟨hroot, hup⟩ := hups last (by simp [hlast])
      exact absurd ⟨hroot, Or.inr (by simp [hnames, hnil, hlast, hup])⟩ hkept
  · rw [hnames, hlast, ← List.append_assoc, List.dropLast_concat, List.dropLast_concat]

end Clear

/-- Holds for a table of which all links that were resolved led to clear paths. -/
def AllClear (t : FileTree) (links : Links) : Prop := ∀ q r, links.lookup q = some (some r) → t.Clear r

theorem AllClear.opening (h : t.AllClear links) (link : Path) : t.AllClear ((link, none) :: links) := by
  intro q r hq
  rw [lookup_cons_eq] at hq
  split at hq
  · cases hq
  · exact h q r hq

theorem AllClear.closing {r : Path} (h : t.AllClear links) (hr : t.Clear r) (link : Path) :
    t.AllClear ((link, some r) :: links) := by
  intro q r' hq
  rw [lookup_cons_eq] at hq
  split at hq
  · cases hq
    exact hr
  · exact h q r' hq

/-- What a step goes on from is clear again. -/
def Stride.Clear (t : FileTree) : Stride → Prop
  | .on path => t.Clear path
  | .back _ => True
  | .into _ start parts => t.Clear start ∧ ∀ part ∈ parts, '/' ∉ part.toList

theorem Clear.stride (hpath : t.Clear path) (hlinks : t.AllClear links) (hname : '/' ∉ name.toList) :
    (t.stride links path name).Clear t := by
  by_cases hempty : name = ""
  · rw [FileTree.stride, if_pos (Or.inl hempty)]
    exact hpath
  by_cases hdot : name = "."
  · rw [FileTree.stride, if_pos (Or.inr hdot)]
    exact hpath
  by_cases hup : name = ".."
  · rw [hup]
    exact hpath.up
  rcases hl : t.lstat (Path.mk path.root (path.names ++ [name])).text with e | (octets | _ | target)
  case ok.link =>
    rw [stride_name hempty hdot hup, hl]
    dsimp only
    rcases hlookup : links.lookup ⟨path.root, path.names ++ [name]⟩ with _ | _ | known
    · rw [hlookup]
      refine ⟨?_, fun part => unslashed_of_slashParts⟩
      split
      · exact hpath
      · exact .start_absolute t
    · rw [hlookup]
      trivial
    · rw [hlookup]
      exact hlinks _ _ hlookup
  all_goals
    rw [stride_on hempty hdot hup (by simp [hl])]
    exact hpath.append ⟨⟨hempty, hname⟩, hdot, hup⟩ (by simp [hl])

/-- A resolution that comes to the end of its path ends at a clear one, if those of targets do. -/
theorem climb_clear (hinner : ∀ links path names, t.Clear path → t.AllClear links →
      (∀ name ∈ names, '/' ∉ name.toList) → (onLink links path names).ending = .whole →
      t.Clear (onLink links path names).path ∧ t.AllClear (onLink links path names).links) :
    ∀ names links path, t.Clear path → t.AllClear links → (∀ name ∈ names, '/' ∉ name.toList) →
      (t.climb onLink links path names).ending = .whole →
      t.Clear (t.climb onLink links path names).path ∧ t.AllClear (t.climb onLink links path names).links := by
  intro names
  induction names with
  | nil => exact fun links path hpath hlinks _ _ => ⟨hpath, hlinks⟩
  | cons name rest ih =>
    intro links path hpath hlinks hnames hwhole
    obtain ⟨hname, hrest⟩ := List.forall_mem_cons.mp hnames
    have hstride := hpath.stride hlinks hname
    rw [climb_cons] at hwhole ⊢
    cases hs : t.stride links path name with
    | on path' =>
      rw [hs] at hwhole hstride
      exact ih links path' hstride hlinks hrest hwhole
    | back link =>
      rw [hs] at hwhole
      cases hwhole
    | into link start parts =>
      rw [hs] at hwhole hstride
      dsimp only at hwhole ⊢
      split at hwhole
      · next hend =>
        obtain ⟨hinside, htable⟩ := hinner _ start parts hstride.1 (hlinks.opening link) hstride.2 hend
        rw [if_pos hend]
        exact ih _ _ hinside (htable.closing hinside link) hrest hwhole
      · next hend => exact absurd hwhole hend

theorem climbWithin_clear : ∀ depth names links path, t.Clear path → t.AllClear links →
    (∀ name ∈ names, '/' ∉ name.toList) → (t.climbWithin depth links path names).ending = .whole →
    t.Clear (t.climbWithin depth links path names).path ∧
      t.AllClear (t.climbWithin depth links path names).links := by
  intro depth
  induction depth with
  | zero => exact climb_clear nofun
  | succ depth ih => exact climb_clear fun links path names => ih names links path

theorem clear_ascend (hp : ∀ name ∈ p.names, '/' ∉ name.toList) (hwhole : (t.ascend p).ending = .whole) :
    t.Clear (t.ascend p).path := by
  have hstart : t.Clear p.origin := by
    obtain ⟨root, names⟩ := p
    cases root with
    | relative => exact .start_relative t
    | absolute | doubled => exact .start_absolute t
  exact (climbWithin_clear depthLimit p.names [] p.origin hstart nofun hp hwhole).1

/-- A walk through names that are no links as far as can be told goes where they lead, if the path is
short enough for the system to tell. -/
theorem Straight.of_clear (ht : t.Named) (hq : t.Straight q base)
    (hbase : rest ≠ [] → t.node? base = some .directory) (hrest : ∀ name ∈ rest, IsStep name)
    (hlink : ∀ above name, above ++ [name] <+: rest → ∀ target,
      t.lstat (Path.mk q.root (q.names ++ above ++ [name])).text ≠ .ok (.link target))
    (hsize : (Path.mk q.root (q.names ++ rest)).text.utf8ByteSize ≤ pathLimit)
    (hwalk : t.walk true k base rest = .ok (.found l)) :
    l = base ++ rest ∧ t.Straight ⟨q.root, q.names ++ rest⟩ l := by
  induction rest generalizing q base k with
  | nil =>
    rw [walk_nil] at hwalk
    cases hwalk
    simpa using hq
  | cons name rest ih =>
    obtain ⟨hname, hothers⟩ := List.forall_mem_cons.mp hrest
    have hdir := hbase (List.cons_ne_nil name rest)
    obtain ⟨d, k', -, hd, hgo, hgoDir⟩ := walk_first ht.toIsTree hdir hwalk
    have hbehind : ∀ other ∈ rest, IsName other := fun other hother => (hothers other hother).toIsName
    have hmore : q.names ++ name :: rest = q.names ++ [name] ++ rest := by simp
    rw [hmore] at hsize ⊢
    rcases walk_name_cases hname.ne_dot hname.ne_up hd with ⟨rfl, hn, hno⟩ | ⟨target, _, htarget, -, -⟩
    · obtain ⟨hl, hstraight⟩ := ih (hq.append hdir (ht.entryName hn) hno hn) hgoDir hothers
        (fun above last hbegin target => by
          have hlonger : name :: above ++ [last] <+: name :: rest := List.cons_prefix_cons.mpr ⟨rfl, hbegin⟩
          simpa using hlink (name :: above) last hlonger target) hsize hgo
      exact ⟨by rw [hl, List.append_assoc]; rfl, hstraight⟩
    · -- The system would have told that this is a link.
      have hshort := Nat.le_trans
        (Path.size_le_append (Path.mk q.root (q.names ++ [name])) hbehind) hsize
      have hl := (hq.lstat_link hdir (ht.entryName (by rw [htarget]; simp))).mpr ⟨hshort, htarget⟩
      have hfirst : [] ++ [name] <+: name :: rest := List.cons_prefix_cons.mpr ⟨rfl, List.nil_prefix⟩
      exact absurd hl (by simpa using hlink [] name hfirst target)

/-- To go up from where a path starts leads to a directory. -/
theorem Straight.of_ups (ht : t.Named) {root : Root} {ups : List String} (hroot : root ≠ .doubled)
    (hups : ∀ name ∈ ups, root = .relative ∧ name = "..") :
    ∃ base, t.Straight ⟨root, ups⟩ base ∧ t.node? base = some .directory := by
  induction ups using List.reverseRecOn with
  | nil =>
    cases root with
    | relative => exact ⟨t.here, .start_relative t, ht.here⟩
    | absolute => exact ⟨[], .start_absolute t, rfl⟩
    | doubled => exact absurd rfl hroot
  | append_singleton ups last ih =>
    obtain ⟨base, hbase, hdir⟩ := ih fun name hname => hups name (List.mem_append_left _ hname)
    obtain ⟨hrelative, rfl⟩ := hups last (by simp)
    have hlast : ups = [] ∨ ups.getLast? = some ".." := by
      rcases List.eq_nil_or_concat' ups with hnil | ⟨before, name, rfl⟩
      · exact Or.inl hnil
      · exact Or.inr (by simp [(hups name (by simp)).2])
    have hup : (Path.mk root ups).up = ⟨root, ups ++ [".."]⟩ := if_pos ⟨hrelative, hlast⟩
    exact ⟨base.dropLast, hup ▸ hbase.up hdir, ht.dropLast hdir⟩

theorem foldl_goTo_steps (hrest : ∀ name ∈ rest, IsStep name) : rest.foldl goTo base = base ++ rest := by
  induction rest generalizing base with
  | nil => simp
  | cons name rest ih =>
    obtain ⟨hname, hothers⟩ := List.forall_mem_cons.mp hrest
    rw [List.foldl_cons, goTo_name hname.nonempty hname.ne_dot hname.ne_up, ih hothers,
      List.append_assoc]
    rfl

/-- A file that is read at a clear path, made absolute, stands at the place that the path names. -/
theorem Clear.exists_file (ht : t.Named) (hq : t.Clear q) (hsize : q.text.utf8ByteSize ≤ pathLimit)
    {octets : List UInt8} (hread : t.read (t.absolute q).text = .ok octets) :
    ∃ l, t.absolute q = .ofLocation l ∧ t.node? l = some (.file octets) := by
  obtain ⟨ups, rest, hnames, hups, hrest⟩ := hq.shape
  obtain ⟨root, names⟩ := q
  obtain rfl : names = ups ++ rest := hnames
  obtain ⟨base, hbase, hdir⟩ := Straight.of_ups ht hq.root hups
  have habsolute : t.absolute ⟨root, ups ++ rest⟩ = .ofLocation (base ++ rest) := by
    have hplace : t.place ⟨root, ups ++ rest⟩ = rest.foldl goTo (t.place ⟨root, ups⟩) :=
      List.foldl_append
    rw [ht.absolute_eq_place hq.root, hplace, hbase.place_eq, foldl_goTo_steps hrest]
  have hproper : (Path.ofLocation (base ++ rest)).Proper := by
    intro name hname
    rcases List.mem_append.mp hname with hname | hname
    · exact (ht.names base (by rw [hdir]; simp) name hname).toIsName
    · exact (hrest name hname).toIsName
  rw [habsolute] at hread ⊢
  obtain ⟨-, l, hseek, hn⟩ := stat_iff_seek.mp (read_eq_ok.mp hread)
  rw [seek_text hproper] at hseek
  split at hseek
  · cases hseek
  -- The walk from the top goes through the directory above first.
  have hwalk : t.walk true linkLimit base rest = .ok (.found l) := by
    by_cases hnil : rest = []
    · have hfound : t.walk true linkLimit [] base = .ok (.found base) := ht.walk_below (l := []) hdir nofun
      rw [hnil, List.append_nil] at hseek
      rw [hnil, walk_nil]
      exact hfound.symm.trans hseek
    · exact ((Straight.of_place ht hdir nofun).walk_append hdir linkLimit hnil).symm.trans hseek
  have hl := (hbase.of_clear ht (fun _ => hdir) hrest (fun above name hbegin target => ?_) hsize hwalk).1
  · exact ⟨l, by rw [hl], hn⟩
  · have hname := hrest name (hbegin.subset (by simp))
    refine hq.noLink (ups ++ above) name ?_ hname.ne_up target
    rw [List.append_assoc]
    exact (List.prefix_append_right_inj ups).mpr hbegin

/-- What a path resolves to is the place of a file if a file is read there, unless the resolution met a
link again while that was being resolved, or its own path got too long. -/
theorem Named.place_of_resolve (ht : t.Named) (h : t.resolve p = .ok q)
    (hp : ∀ name ∈ p.names, '/' ∉ name.toList) (hwhole : (t.ascend p).ending = .whole)
    (hsize : (t.ascend p).path.text.utf8ByteSize ≤ pathLimit) {octets : List UInt8}
    (hread : t.read q.text = .ok octets) :
    ∃ l, q = .ofLocation l ∧ t.node? l = some (.file octets) := by
  obtain rfl : q = t.absolute (t.ascend p).path := eq_absolute_of_resolve h
  exact (clear_ascend hp hwhole).exists_file ht hsize hread

end LintDebt.FileTree
