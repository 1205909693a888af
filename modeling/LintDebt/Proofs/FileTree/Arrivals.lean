import LintDebt.Proofs.FileTree.Climbing

/-! # Where paths resolve to

A path resolves to the place at which its walk finds something, whichever links the walk goes through,
as long as no link is overlooked on the way because its path is too long. The place of anything but a
link resolves to itself. -/

namespace LintDebt

/-- A text names the same parts as its path, and some that lead nowhere. -/
theorem Route.filter_steps (s : String) :
    (Route.parse s).steps.filter (· ≠ ".") = (Path.parse s).names := by
  have hnames : (Route.parse s).names.filter (· ≠ ".") = (Path.parse s).names := by
    change ((slashParts s).filter (· ≠ "")).filter (· ≠ ".") = (slashParts s).filter _
    rw [List.filter_filter]
    apply List.filter_congr
    intro name _
    simp [Bool.and_comm]
  rw [Route.steps]
  split
  · rw [List.filter_append, hnames]
    exact List.append_nil _
  · exact hnames

namespace FileTree

variable {t : FileTree} {k : Nat} {p : Path} {place l : Location} {names : List String} {n : Node}

/-- What is walked to past dots is walked to without them. -/
theorem walk_undotted : ∀ k place names, ∀ a b, names = a ++ b →
    t.walk true k place (a ++ b) = .ok (.found l) →
      t.walk true k place (a ++ b.filter (· ≠ ".")) = .ok (.found l) := by
  -- The names of a link's target come before what is left, and keep their dots.
  refine walk_induction (fun k place a b hnil h => ?_) (fun k place name rest ih ihk a b hcons h => ?_)
  · obtain ⟨rfl, rfl⟩ := List.append_eq_nil_iff.mp hnil.symm
    exact h
  have hstep : ∀ a b, rest = a ++ b → t.walk true k place (name :: (a ++ b)) = .ok (.found l) →
      t.walk true k place (name :: (a ++ b.filter (· ≠ "."))) = .ok (.found l) := by
    rintro a b rfl h
    by_cases hlast : a ++ b = []
    · obtain ⟨rfl, rfl⟩ := List.append_eq_nil_iff.mp hlast
      exact h
    rw [walk_cons, List.isEmpty_eq_false_iff.mpr hlast] at h
    rw [walk_cons]
    rcases move_interior t true place name (a ++ b.filter (· ≠ ".")).isEmpty with
      ⟨e, r, he, -, -⟩ | ⟨hmove, hstop⟩
    · rw [he] at h
      cases h
    rw [← hmove]
    cases hm : t.move true place name false with
    | stop r => exact absurd hm (hstop r)
    | go place' =>
      rw [hm] at h
      exact ih place' a b rfl h
    | follow place' names =>
      rw [hm] at h
      cases k with
      | zero => cases h
      | succ k =>
        dsimp only at h ⊢
        rw [← List.append_assoc] at h ⊢
        exact ihk k place' _ rfl (names ++ a) b (List.append_assoc names a b).symm h
  cases a with
  | cons first a =>
    obtain ⟨rfl, hrest⟩ := List.cons.inj hcons
    exact hstep a b hrest h
  | nil =>
    obtain rfl : b = name :: rest := hcons.symm
    by_cases hdot : name = "."
    · rw [List.nil_append, hdot, walk_dot] at h
      rw [List.nil_append, List.filter_cons_of_neg (by simp [hdot])]
      exact ih place [] rest rfl h
    · rw [List.filter_cons_of_pos (by simp [hdot])]
      exact hstep [] rest rfl h

/-- Every name on a walk is one that the system admits. -/
theorem Named.nonnull_of_walk (ht : t.Named) : ∀ k place names,
    t.walk true k place names = .ok (.found l) → ∀ name ∈ names, '\x00' ∉ name.toList := by
  refine walk_induction (fun k place _ => nofun) (fun k place name rest ih ihk h => ?_)
  rw [List.forall_mem_cons]
  by_cases hdot : name = "."
  · rw [hdot, walk_dot] at h
    exact ⟨by rw [hdot]; decide, ih place h⟩
  by_cases hup : name = ".."
  · rw [hup, walk_up] at h
    exact ⟨by rw [hup]; decide, ih place.dropLast h⟩
  have hnonnull : t.node? (place ++ [name]) ≠ none → '\x00' ∉ name.toList :=
    fun hn => (ht.entryName hn).nonnull
  rcases walk_ordinary_cases (ordinary_of_walk hdot hup h) h with
    ⟨hn, h⟩ | ⟨⟨octets, hn⟩, rfl, -⟩ | ⟨target, j, hn, hk, h⟩
  · exact ⟨hnonnull (by simp [hn]), ih _ h⟩
  · exact ⟨hnonnull (by simp [hn]), nofun⟩
  · exact ⟨hnonnull (by simp [hn]),
      fun other hother => ihk j _ _ hk h other (List.mem_append_right _ hother)⟩

theorem eq_absolute_of_resolve {q : Path} (h : t.resolve p = .ok q) :
    q = t.absolute (t.ascend p).path := by
  rw [resolve] at h
  dsimp only at h
  split at h
  · cases h
  split at h
  · cases h
  split at h
  · cases h
  · exact (Except.ok.inj h).symm

/-- Where a resolution ends at the path of a place, that is what the path resolves to. -/
theorem Named.resolve_eq (ht : t.Named) (hn : t.node? l = some n) (hlink : ∀ target, n ≠ .link target)
    (hnonnull : ∀ name ∈ p.names, '\x00' ∉ name.toList) (hwhole : (t.ascend p).ending = .whole)
    (hpath : t.absolute (t.ascend p).path = .ofLocation l) : t.resolve p = .ok (.ofLocation l) := by
  have hnull : ¬ p.names.any (·.toList.contains '\x00') = true := by
    simpa using hnonnull
  rw [resolve, if_neg hnull]
  dsimp only
  rw [hwhole, if_neg (by decide), hpath, ht.stat_place hn hlink]
  by_cases hlong : pathLimit < (Path.ofLocation l).text.utf8ByteSize
  · rw [if_pos hlong]
  · rw [if_neg hlong]

/-- A path resolves to the place that its walk ends at. -/
theorem Named.resolve_of_walk (ht : t.Named) (hn : t.node? l = some n)
    (hlink : ∀ target, n ≠ .link target) (hk : k ≤ depthLimit)
    (hwalk : t.walk true k (t.origin p) p.names = .ok (.found l)) (hnames : ∀ name ∈ p.names, name ≠ "")
    (hsurveyed : t.Surveyed p) : t.resolve p = .ok (.ofLocation l) := by
  have hkept : p.names.filter (· ≠ "") = p.names :=
    List.filter_eq_self.mpr fun name hname => decide_eq_true (hnames name hname)
  have hstart : t.Straight p.origin (t.origin p) ∧ t.node? (t.origin p) = some .directory := by
    obtain ⟨root, names⟩ := p
    cases root with
    | relative => exact ⟨.start_relative t, ht.here⟩
    | absolute | doubled => exact ⟨.start_absolute t, rfl⟩
  have harrived := climbWithin_arrives ht depthLimit k [] (t.origin p) p.origin p.names l hk
    { walk := by rw [hkept]; exact hwalk
      straight := hstart.1
      directory := fun _ => hstart.2
      known := nofun
      beyond := nofun
      short := hsurveyed }
  exact ht.resolve_eq hn hlink (ht.nonnull_of_walk _ _ _ hwalk) harrived.whole
    (harrived.straight.absolute_eq ht)

/-- A resolution does not change the names of a place, none of which is a link. -/
theorem Named.climb_place (ht : t.Named) (hn : t.node? l = some n) (hlink : ∀ target, n ≠ .link target)
    (onLink : Links → Path → List String → Climb) (links : Links) {above : List String}
    (hl : above ++ names = l) :
    t.climb onLink links (.ofLocation above) names = ⟨links, .ofLocation l, .whole⟩ := by
  induction names generalizing above with
  | nil =>
    rw [List.append_nil] at hl
    rw [hl]
    rfl
  | cons name rest ih =>
    have hname : IsEntryName name := ht.names l (by rw [hn]; simp) name (by simp [← hl])
    have hbelow : above ++ [name] ++ rest = l := by
      rw [← hl, List.append_assoc]
      rfl
    have habove : t.node? above = some .directory :=
      ht.above (List.cons_ne_nil name rest) (by rw [hl, hn]; simp)
    have hentry : ∀ target, t.node? (above ++ [name]) ≠ some (.link target) := by
      intro target htarget
      cases rest with
      | nil =>
        rw [List.append_nil] at hbelow
        rw [hbelow, hn] at htarget
        exact hlink target (Option.some.inj htarget)
      | cons second rest =>
        rw [ht.above (List.cons_ne_nil second rest) (by rw [hbelow, hn]; simp)] at htarget
        cases htarget
    have hstraight : t.Straight (.ofLocation above) above := .of_place ht habove nofun
    have hstride : t.stride links (.ofLocation above) name = .on (.ofLocation (above ++ [name])) :=
      stride_on hname.nonempty hname.ne_dot hname.ne_up fun target hl =>
        hentry target ((hstraight.lstat_link habove hname).mp hl).2
    rw [climb_cons, hstride]
    exact ih hbelow

/-- A place resolves to itself. -/
theorem Named.resolve_place (ht : t.Named) (hn : t.node? l = some n)
    (hlink : ∀ target, n ≠ .link target) : t.resolve (.ofLocation l) = .ok (.ofLocation l) := by
  have hascend : t.ascend (.ofLocation l) = ⟨[], .ofLocation l, .whole⟩ := by
    rw [ascend, climbWithin_eq]
    exact ht.climb_place hn hlink _ _ rfl
  refine ht.resolve_eq hn hlink
    (fun name hname => (ht.names l (by rw [hn]; simp) name hname).nonnull) (by rw [hascend]) ?_
  rw [hascend]
  exact Straight.absolute_eq (.of_place ht hn hlink) ht

end FileTree
end LintDebt
