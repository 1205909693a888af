import LintDebt.Proofs.FileTree.Entries

/-! # Contents of files

Where a path leads to, what is read there, and what a write changes. Writing touches one location
only, and a tree that is written to has the ways it had before. -/

namespace LintDebt.FileTree

variable {t t' : FileTree} {path : String} {l : Location} {octets new : List UInt8}

/-- The place that a path leads to, links followed, whether or not something stands there. -/
def target? (t : FileTree) (path : String) : Option Location :=
  match Route.of path with
  | .error _ => none
  | .ok r => (t.seek true r).toOption.map Spot.place

theorem route_of_eq_ok {r : Route} :
    Route.of path = .ok r ↔ '\x00' ∉ path.toList ∧ r = .parse path := by
  rw [Route.of]
  by_cases h : '\x00' ∈ path.toList <;> simp [h, eq_comm]

/-- The place that a path leads to is where it is looked up. -/
theorem target?_of_seek {x : Spot} (hnull : '\x00' ∉ path.toList)
    (h : t.seek true (.parse path) = .ok x) : t.target? path = some x.place := by
  rw [target?, route_of_eq_ok.mpr ⟨hnull, rfl⟩]
  simp only [h]
  rfl

theorem SameEnd.place_eq {x y : Except OsCode Spot} (h : SameEnd x y) :
    x.toOption.map Spot.place = y.toOption.map Spot.place := by
  cases x with
  | error e =>
    cases y with
    | error e' => rfl
    | ok y => cases h
  | ok x =>
    cases y with
    | error e => cases h
    | ok y => exact congrArg some h

theorem seek_eq (t : FileTree) (f : Bool) (r : Route) :
    t.seek f r = match checkRoute r with
      | .error e => .error e
      | .ok _ => t.walk f linkLimit (t.start r) r.steps := by
  rw [seek]
  generalize t.walk f linkLimit (t.start r) r.steps = x
  cases checkRoute r <;> rfl

theorem SameWays.seek (h : SameWays t t') (f : Bool) (r : Route) :
    SameEnd (t.seek f r) (t'.seek f r) := by
  have hstart : t'.start r = t.start r := by
    rw [FileTree.start, FileTree.start, h.here]
  have hwalk := h.walk (f := f) linkLimit (t.start r) r.steps
  rw [seek_eq, seek_eq, hstart]
  cases checkRoute r with
  | error e => exact SameEnd.refl _
  | ok u => exact hwalk

theorem SameWays.target?_eq (h : SameWays t t') (path : String) :
    t.target? path = t'.target? path := by
  unfold target?
  cases Route.of path with
  | error e => rfl
  | ok r => exact (h.seek true r).place_eq

/-- What a path leads to, links at its end followed or not. -/
theorem found_eq_ok {f : Bool} {n : Node} :
    (do
      let r ← Route.of path
      return (← refusing path none (t.lookup f r)).2) = Except.ok n ↔
    '\x00' ∉ path.toList ∧ ∃ l, t.lookup f (.parse path) = .ok (l, n) := by
  rw [bind_eq_ok]
  constructor
  · rintro ⟨r, hr, h⟩
    obtain ⟨hnull, rfl⟩ := route_of_eq_ok.mp hr
    obtain ⟨⟨l, m⟩, hl, h⟩ := bind_eq_ok.mp h
    rw [refusing, mapError_eq_ok] at hl
    cases h
    exact ⟨hnull, l, hl⟩
  · rintro ⟨hnull, l, hl⟩
    refine ⟨_, route_of_eq_ok.mpr ⟨hnull, rfl⟩, bind_eq_ok.mpr ⟨(l, n), ?_, rfl⟩⟩
    rw [refusing, mapError_eq_ok, hl]

theorem stat_eq_ok {n : Node} : t.stat path = .ok n ↔
    '\x00' ∉ path.toList ∧ ∃ l, t.lookup true (.parse path) = .ok (l, n) :=
  found_eq_ok

theorem read_eq_ok : t.read path = .ok octets ↔ t.stat path = .ok (.file octets) := by
  rw [read]
  rcases t.stat path with e | n
  · simp [bind, Except.bind]
  · cases n <;> simp [bind, Except.bind]

theorem exists_stat_of_existsAt (h : t.existsAt path = .ok true) : ∃ n, t.stat path = .ok n := by
  rw [existsAt] at h
  cases hs : t.stat path with
  | ok n => exact ⟨n, rfl⟩
  | error e =>
    rw [hs] at h
    simp only [Except.map, holdsAt] at h
    split at h <;> cases h

/-- A file that can be read can be written. -/
theorem write_of_read (h : t.read path = .ok octets) (new : List UInt8) :
    ∃ l, l ≠ [] ∧ t.node? l = some (.file octets) ∧ t.target? path = some l ∧
      t.write path new = .ok (t.put l (.file new)) := by
  obtain ⟨hnull, l, hl⟩ := stat_eq_ok.mp (read_eq_ok.mp h)
  obtain ⟨hcheck, hwalk, hnode⟩ := lookup_eq_ok.mp hl
  have hne : l ≠ [] := by
    rintro rfl
    rw [node?_nil] at hnode
    cases hnode
  have hseek : t.seek true (.parse path) = .ok (.found l) := by
    rw [seek, hcheck]
    exact hwalk
  have hroute := route_of_eq_ok.mpr ⟨hnull, rfl⟩
  refine ⟨l, hne, hnode, ?_, ?_⟩
  · rw [target?, hroute]
    simp only [hseek]
    rfl
  · rw [write, hroute]
    simp only [bind, Except.bind, refusing, hseek, mapError_ok, hnode]

/-- A tree in which at most the content of the file at a path is another one. -/
def Rewritten (t : FileTree) (path : String) (t' : FileTree) : Prop :=
  t' = t ∨ ∃ old new, t.read path = .ok old ∧ t.write path new = .ok t'

/-- A write sets a file where its path leads to. -/
theorem exists_place_of_write (h : t.write path new = .ok t') :
    ∃ x, '\x00' ∉ path.toList ∧ t.seek true (.parse path) = .ok x ∧ x.place ≠ [] ∧
      t.way? x.place = none ∧ t' = t.put x.place (.file new) ∧ (t.IsTree → t'.IsTree) := by
  obtain ⟨r, hr, h⟩ := bind_eq_ok.mp h
  obtain ⟨hnull, rfl⟩ := route_of_eq_ok.mp hr
  obtain ⟨x, hx, h⟩ := bind_eq_ok.mp h
  rw [refusing, mapError_eq_ok] at hx
  refine ⟨x, hnull, hx, ?_⟩
  cases x with
  | vacant d name =>
    rw [seek_eq] at hx
    split at hx
    · cases hx
    obtain ⟨hnone, -, hdir⟩ := walk_vacant _ _ _ hx
    cases h
    refine ⟨by simp [Spot.place], by simp [way?, Spot.place, hnone], rfl, fun ht => ?_⟩
    exact ht.put (hdir ht ht.start) (by rw [hnone]; simp)
  | found l =>
    dsimp only at h
    split at h
    · next octets hl =>
      cases h
      have hne : l ≠ [] := by
        rintro rfl
        cases hl
      exact ⟨hne, by simp [way?, Spot.place, hl, Option.filter, Node.isWay], rfl,
        fun ht => ht.put_over hne hl⟩
    · cases h

/-- Where a path leads to, a write puts its octets. -/
theorem eq_put_of_write (htarget : t.target? path = some l) (hwrite : t.write path new = .ok t') :
    t' = t.put l (.file new) := by
  obtain ⟨spot, hnull, hseek, -, -, rfl, -⟩ := exists_place_of_write hwrite
  rw [target?_of_seek hnull hseek] at htarget
  rw [Option.some.inj htarget]

theorem IsTree.write (ht : t.IsTree) (h : t.write path new = .ok t') : t'.IsTree := by
  obtain ⟨_, _, _, _, _, _, htree⟩ := exists_place_of_write h
  exact htree ht

/-- Where the ways are the same, what is there is found. -/
theorem SameWays.seek_found (h : SameWays t t') {f : Bool} {r : Route} {x : Spot}
    (hx : t.seek f r = .ok x) (hn : t'.node? x.place ≠ none) :
    t'.seek f r = .ok (.found x.place) := by
  have hend := h.seek f r
  rw [hx] at hend
  rcases hy : t'.seek f r with e | y
  · rw [hy] at hend
    cases hend
  rw [hy] at hend
  replace hend : x.place = y.place := hend
  cases y with
  | found l => rw [hend]; rfl
  | vacant d name =>
    rw [seek_eq] at hy
    split at hy
    · cases hy
    · exact absurd (walk_vacant _ _ _ hy).1 (by rwa [hend] at hn)

/-- A path leads to what stands at its place. -/
theorem seek_of_target? (htarget : t.target? path = some l) (hn : t.node? l ≠ none) :
    '\x00' ∉ path.toList ∧ t.seek true (.parse path) = .ok (.found l) := by
  rw [target?] at htarget
  rcases hr : Route.of path with e | r
  · rw [hr] at htarget
    cases htarget
  rw [hr] at htarget
  obtain ⟨hnull, rfl⟩ := route_of_eq_ok.mp hr
  rcases hx : t.seek true (.parse path) with e | x
  · simp [hx, Except.toOption] at htarget
  obtain rfl : x.place = l := by simpa [hx, Except.toOption] using htarget
  rw [← (SameWays.refl t).seek_found hx hn, hx]
  exact ⟨hnull, rfl⟩

/-- A file is read where the path leads to. -/
theorem read_of_target? (htarget : t.target? path = some l) (hn : t.node? l = some (.file octets)) :
    t.read path = .ok octets := by
  obtain ⟨hnull, hseek⟩ := seek_of_target? htarget (by rw [hn]; simp)
  refine read_eq_ok.mpr (stat_eq_ok.mpr ⟨hnull, l, ?_⟩)
  rw [lookup, hseek]
  simp only [bind, Except.bind, hn]

theorem read_of_write (h : t.write path new = .ok t') : t'.read path = .ok new := by
  obtain ⟨x, hnull, hx, hne, hway, rfl, -⟩ := exists_place_of_write h
  have hnode : (t.put x.place (.file new)).node? x.place = some (.file new) := by
    rw [node?_put hne, if_pos rfl]
  have hseek := (sameWays_put hne hway new).seek_found hx (by rw [hnode]; simp)
  refine read_eq_ok.mpr (stat_eq_ok.mpr ⟨hnull, x.place, ?_⟩)
  rw [lookup, hseek]
  simp only [bind, Except.bind, hnode]

end LintDebt.FileTree
