import LintDebt.Proofs.FileTree.Canonical

/-! # Trees that differ in contents only

A write to a file that is there changes no shape: every path leads to the same place as before, and
every question about paths has the same answer, down to the refusals. What is read at a path depends
on the content of the one file that the path leads to. -/

namespace LintDebt

/-- What is left of a node when the content of a file does not count. -/
def Node.shape : Node → Node
  | .file _ => .file []
  | n => n

namespace FileTree

variable {t t' : FileTree} {l : Location} {path : String} {n : Node} {old new octets : List UInt8}

/-- Holds for trees that differ in the contents of files only. -/
structure SameShape (t t' : FileTree) : Prop where
  here : t.here = t'.here
  locations : t.locations = t'.locations
  shape : ∀ l, (t.node? l).map Node.shape = (t'.node? l).map Node.shape

namespace SameShape

theorem refl (t : FileTree) : SameShape t t := ⟨rfl, rfl, fun _ => rfl⟩

theorem trans {t'' : FileTree} (h : SameShape t t') (h' : SameShape t' t'') : SameShape t t'' :=
  ⟨h.here.trans h'.here, h.locations.trans h'.locations, fun l => (h.shape l).trans (h'.shape l)⟩

/-- What stands at a place is a file in both trees, or the same in both. -/
theorem node_cases (h : SameShape t t') (l : Location) :
    t.node? l = t'.node? l ∨
      ∃ old new, t.node? l = some (.file old) ∧ t'.node? l = some (.file new) := by
  have hs := h.shape l
  rcases hn : t.node? l with _ | n <;> rcases hn' : t'.node? l with _ | n' <;> rw [hn, hn'] at hs
  · exact Or.inl rfl
  · cases hs
  · cases hs
  · replace hs : n.shape = n'.shape := Option.some.inj hs
    cases n <;> cases n' <;> simp [Node.shape] at hs ⊢
    exact hs

theorem node?_eq_none (h : SameShape t t') : t.node? l = none ↔ t'.node? l = none := by
  rcases h.node_cases l with heq | ⟨old, new, hold, hnew⟩
  · rw [heq]
  · simp [hold, hnew]

theorem exists_file (h : SameShape t t') (hn : t.node? l = some (.file octets)) :
    ∃ new, t'.node? l = some (.file new) := by
  rcases h.node_cases l with heq | ⟨_, new, -, hnew⟩
  · exact ⟨octets, heq ▸ hn⟩
  · exact ⟨new, hnew⟩

theorem sameWays (h : SameShape t t') : SameWays t t' := by
  refine ⟨h.here, fun l => ?_⟩
  rcases h.node_cases l with heq | ⟨old, new, hold, hnew⟩
  · rw [FileTree.way?, FileTree.way?, heq]
  · rw [FileTree.way?, FileTree.way?, hold, hnew]
    rfl

theorem put (hl : l ≠ []) (hn : t.node? l = some (.file old)) (new : List UInt8) :
    SameShape t (t.put l (.file new)) := by
  refine ⟨rfl, locations_congr fun k => ?_, fun k => ?_⟩
  · rw [nodes_put]
    split
    · next hk => simp [hk, nodes_of_node? hl, hn]
    · rfl
  · rw [node?_put hl]
    split
    · next hk => rw [hk, hn]; rfl
    · rfl

theorem isTree (h : SameShape t t') (ht : t.IsTree) : t'.IsTree := by
  refine ⟨?_, fun l name hn => ?_⟩
  · rw [← h.here]
    exact h.sameWays.node?_eq ht.here rfl
  · exact h.sameWays.node?_eq (ht.parent l name fun hnone => hn (h.node?_eq_none.mp hnone)) rfl

theorem move (h : SameShape t t') (f : Bool) (p : Location) (name : String) (last : Bool) :
    t.move f p name last = t'.move f p name last := by
  by_cases hname : Ordinary name
  · rw [move_of_ordinary hname, move_of_ordinary hname, enter, enter]
    rcases h.node_cases (p ++ [name]) with heq | ⟨old, new, hold, hnew⟩
    · rw [heq]
    · rw [hold, hnew]
  · exact move_of_not_ordinary hname

theorem walk (h : SameShape t t') (f : Bool) :
    ∀ k p names, t.walk f k p names = t'.walk f k p names := by
  refine walk_induction (fun k p => ?_) (fun k p name rest ih ihk => ?_)
  · rw [walk_nil, walk_nil]
  · rw [walk_cons, walk_cons, h.move]
    cases t'.move f p name rest.isEmpty with
    | stop r => rfl
    | go p' => exact ih p'
    | follow p' names =>
      cases k with
      | zero => rfl
      | succ k => exact ihk k p' _ rfl

theorem seek (h : SameShape t t') (f : Bool) (r : Route) : t.seek f r = t'.seek f r := by
  rw [seek_eq, seek_eq, h.walk, FileTree.start, FileTree.start, h.here]

theorem target?_eq (h : SameShape t t') (path : String) : t.target? path = t'.target? path :=
  h.sameWays.target?_eq path

end SameShape

theorem lookup_eq (t : FileTree) (f : Bool) (r : Route) :
    t.lookup f r = match t.seek f r with
      | .error e => .error e
      | .ok (.vacant _ _) => .error .noEntry
      | .ok (.found l) => match t.node? l with
        | some n => .ok (l, n)
        | none => .error .noEntry := by
  rw [lookup]
  rcases t.seek f r with e | x | x <;> rfl

namespace SameShape

theorem lookup (h : SameShape t t') (f : Bool) (r : Route) :
    (t.lookup f r).map (Prod.map id Node.shape) = (t'.lookup f r).map (Prod.map id Node.shape) := by
  rw [lookup_eq, lookup_eq, h.seek]
  rcases t'.seek f r with e | ⟨l⟩ | ⟨d, name⟩
  · rfl
  · dsimp only
    rcases h.node_cases l with heq | ⟨old, new, hold, hnew⟩
    · rw [heq]
    · rw [hold, hnew]
      rfl
  · rfl

/-- What is at a path has the same shape. -/
theorem found (h : SameShape t t') (f : Bool) (path : String) :
    (do
      let r ← Route.of path
      return (← refusing path none (t.lookup f r)).2 : Except OsError Node).map Node.shape =
    (do
      let r ← Route.of path
      return (← refusing path none (t'.lookup f r)).2 : Except OsError Node).map Node.shape := by
  rcases Route.of path with e | r
  · rfl
  have hlookup := h.lookup f r
  simp only [bind, Except.bind]
  revert hlookup
  generalize t.lookup f r = x
  generalize t'.lookup f r = y
  intro hxy
  rcases x with e | ⟨k, n⟩ <;> rcases y with e' | ⟨k', n'⟩ <;>
    simp only [Except.map, Except.ok.injEq, Except.error.injEq, reduceCtorEq, Prod.map, id,
      Prod.mk.injEq] at hxy
  · rw [hxy]
  · exact congrArg Except.ok hxy.2

theorem stat (h : SameShape t t') (path : String) :
    (t.stat path).map Node.shape = (t'.stat path).map Node.shape :=
  h.found true path

theorem lstat (h : SameShape t t') (path : String) :
    (t.lstat path).map Node.shape = (t'.lstat path).map Node.shape :=
  h.found false path

/-- What is at a path is the same if the same is at its place. -/
theorem stat_eq (h : SameShape t t')
    (hn : ∀ l, t.target? path = some l → t.node? l = t'.node? l) : t.stat path = t'.stat path := by
  rw [FileTree.stat, FileTree.stat]
  rcases hr : Route.of path with e | r
  · rfl
  obtain ⟨hnull, rfl⟩ := route_of_eq_ok.mp hr
  have hlookup : t.lookup true (.parse path) = t'.lookup true (.parse path) := by
    rw [lookup_eq, lookup_eq, ← h.seek]
    rcases hs : t.seek true (.parse path) with e | ⟨l⟩ | ⟨d, name⟩
    · rfl
    · dsimp only
      rw [hn l (target?_of_seek hnull hs)]
    · rfl
  simp only [bind, Except.bind, hlookup]

theorem isPresent (h : SameShape t t') (path : String) : t.isPresent path = t'.isPresent path := by
  have hl := h.lstat path
  rw [FileTree.isPresent, FileTree.isPresent]
  cases hx : t.lstat path <;> cases hy : t'.lstat path <;> rw [hx, hy] at hl <;> first | rfl | cases hl

/-- A question about what is at a path has the same answer if no content is asked for. -/
theorem map_stat {α : Type} (h : SameShape t t') (path : String) {f : Node → α}
    (hf : ∀ n : Node, f n.shape = f n) : (t.stat path).map f = (t'.stat path).map f := by
  have hs := h.stat path
  revert hs
  generalize t.stat path = x
  generalize t'.stat path = y
  intro hxy
  cases x with
  | error e =>
    cases y with
    | error e' => exact congrArg Except.error (Except.error.inj hxy)
    | ok n' => cases hxy
  | ok n =>
    cases y with
    | error e' => cases hxy
    | ok n' => exact congrArg Except.ok (by rw [← hf, ← hf n', Except.ok.inj hxy])

theorem existsAt (h : SameShape t t') (path : String) : t.existsAt path = t'.existsAt path :=
  congrArg holdsAt (h.map_stat path fun _ => rfl)

theorem isFile (h : SameShape t t') (path : String) : t.isFile path = t'.isFile path :=
  congrArg holdsAt (h.map_stat path fun n => by cases n <;> rfl)

theorem isDirectory (h : SameShape t t') (path : String) :
    t.isDirectory path = t'.isDirectory path := by
  have hs := h.stat path
  rw [FileTree.isDirectory, FileTree.isDirectory]
  revert hs
  generalize t.stat path = x
  generalize t'.stat path = y
  intro hxy
  rcases x with e | n <;> rcases y with e' | n' <;> try cases hxy
  · rfl
  · cases n <;> cases n' <;> first | rfl | cases hxy

theorem entryIsDirectory (h : SameShape t t') (l : Location) (path : String) :
    t.entryIsDirectory l path = t'.entryIsDirectory l path := by
  rw [FileTree.entryIsDirectory, FileTree.entryIsDirectory, h.isDirectory]
  rcases h.node_cases l with heq | ⟨old, new, hold, hnew⟩
  · rw [heq]
  · rw [hold, hnew]

theorem list (h : SameShape t t') (path : String) : t.list path = t'.list path := by
  rw [FileTree.list, FileTree.list]
  rcases Route.of path with e | r
  · rfl
  have hlookup := h.lookup true r
  have hnames : t.childNames = t'.childNames := by
    funext l
    rw [childNames, childNames, h.locations]
  simp only [bind, Except.bind, hnames, h.entryIsDirectory]
  revert hlookup
  generalize t.lookup true r = x
  generalize t'.lookup true r = y
  intro hxy
  rcases x with e | ⟨k, n⟩ <;> rcases y with e' | ⟨k', n'⟩ <;>
    simp only [Except.map, Except.ok.injEq, Except.error.injEq, reduceCtorEq, Prod.map, id,
      Prod.mk.injEq] at hxy
  · rw [hxy]
  · obtain ⟨rfl, hn⟩ := hxy
    cases n <;> cases n' <;> first | rfl | cases hn

end SameShape

/-- What is found where at most files come and go, if the same is at its place. -/
theorem SameWays.stat_eq_ok (h : SameWays t t')
    (hn : ∀ l, t.target? path = some l → t.node? l = t'.node? l) (hstat : t.stat path = .ok n) :
    t'.stat path = .ok n := by
  obtain ⟨hnull, l, hl⟩ := FileTree.stat_eq_ok.mp hstat
  obtain ⟨hcheck, hwalk, hnode⟩ := lookup_eq_ok.mp hl
  have hseek : t.seek true (.parse path) = .ok (.found l) := by
    rw [seek_eq, hcheck]
    exact hwalk
  have hnode' : t'.node? l = some n := by
    rw [← hn l (target?_of_seek hnull hseek), hnode]
  have hseek' := h.seek_found hseek (by rw [Spot.place, hnode']; simp)
  refine FileTree.stat_eq_ok.mpr ⟨hnull, l, ?_⟩
  rw [lookup_eq, hseek']
  simp only [Spot.place, hnode']

theorem SameWays.toOption_stat (h : SameWays t t')
    (hn : ∀ l, t.target? path = some l → t.node? l = t'.node? l) :
    (t.stat path).toOption = (t'.stat path).toOption := by
  have hback : ∀ m, t'.stat path = .ok m → t.stat path = .ok m := by
    intro m
    refine h.symm.stat_eq_ok fun l hl => ?_
    rw [← h.target?_eq] at hl
    exact (hn l hl).symm
  cases hx : t.stat path with
  | ok m => rw [h.stat_eq_ok hn hx]
  | error e =>
    cases hy : t'.stat path with
    | error e' => rfl
    | ok m => rw [hback m hy] at hx; cases hx

end FileTree
end LintDebt
