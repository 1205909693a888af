import LintDebt.Proofs.FileTree.Nodes

/-! # Walks, step by step

One step of a walk stops it, goes on to a place, or follows a link from a place. `move` is that
step, `walk_cons` says that a walk is made of such steps, and `walk_induction` is the induction that
goes with it: over the links that may still be followed, and over the names that are left. -/

namespace LintDebt

/-- The place that a walk ended at, whether or not something stands there. -/
def Spot.place : Spot → Location
  | .found l => l
  | .vacant directory name => directory ++ [name]

namespace FileTree

/-- What a walk does at one name. -/
inductive Move where
  | stop (r : Except OsCode Spot)
  | go (place : Location)
  | follow (place : Location) (names : List String)

/-- A step to a name in a directory; `last` tells whether the name is the last one. -/
def enter (t : FileTree) (follow : Bool) (place : Location) (name : String) (last : Bool) : Move :=
  match t.node? (place ++ [name]) with
  | none => .stop (if last then .ok (.vacant place name) else .error .noEntry)
  | some .directory => .go (place ++ [name])
  | some (.file _) => .stop (if last then .ok (.found (place ++ [name])) else .error .notDirectory)
  | some (.link target) =>
    if last ∧ !follow then .stop (.ok (.found (place ++ [name])))
    else if target = "" then .stop (.error .noEntry)
    else .follow (if (Route.parse target).absolute then [] else place) (Route.parse target).steps

/-- One step of a walk. -/
def move (t : FileTree) (follow : Bool) (place : Location) (name : String) (last : Bool) : Move :=
  if name = "." then .go place
  else if name = ".." then .go place.dropLast
  else if nameLimit < name.utf8ByteSize then .stop (.error .nameTooLong)
  else t.enter follow place name last

/-- A name that an entry of a directory may have. -/
structure Ordinary (name : String) : Prop where
  ne_dot : name ≠ "."
  ne_up : name ≠ ".."
  size_le : name.utf8ByteSize ≤ nameLimit

theorem move_of_ordinary {t : FileTree} {f last : Bool} {p : Location} {name : String}
    (h : Ordinary name) : t.move f p name last = t.enter f p name last := by
  rw [move, if_neg h.ne_dot, if_neg h.ne_up, if_neg (Nat.not_lt.mpr h.size_le)]

/-- A name of another kind does not ask the tree. -/
theorem move_of_not_ordinary {t t' : FileTree} {f f' last last' : Bool} {p : Location}
    {name : String} (h : ¬ Ordinary name) : t.move f p name last = t'.move f' p name last' := by
  unfold move
  by_cases h1 : name = "."
  · rw [if_pos h1, if_pos h1]
  by_cases h2 : name = ".."
  · rw [if_neg h1, if_neg h1, if_pos h2, if_pos h2]
  have h3 : nameLimit < name.utf8ByteSize :=
    Nat.lt_of_not_le fun h3 => h ⟨h1, h2, h3⟩
  simp only [h1, h2, h3, ↓reduceIte]

section walk

variable {t t' : FileTree} {f : Bool} {k : Nat} {p : Location} {name : String} {rest : List String}

@[simp] theorem walk_nil : t.walk f k p [] = .ok (.found p) := by
  cases k <;> rfl

theorem steps_cons {onLink : Location → List String → Except OsCode Spot} :
    t.steps f onLink p (name :: rest) = match t.move f p name rest.isEmpty with
      | .stop r => r
      | .go p' => t.steps f onLink p' rest
      | .follow p' names => onLink p' (names ++ rest) := by
  rw [steps, move, enter]
  by_cases h1 : name = "."
  · simp [h1]
  by_cases h2 : name = ".."
  · simp [h2]
  by_cases h3 : nameLimit < name.utf8ByteSize
  · simp [h1, h2, h3]
  simp only [h1, h2, h3, ↓reduceIte, List.isEmpty_iff]
  cases hn : t.node? (p ++ [name]) with
  | none => cases rest <;> rfl
  | some n =>
    cases n with
    | file octets => cases rest <;> rfl
    | directory => rfl
    | link target =>
      by_cases hstop : rest = [] ∧ (!f) = true
      · simp only [hstop, and_self, ↓reduceIte]
      by_cases htarget : target = ""
      · simp only [hstop, htarget, ↓reduceIte]
      · simp only [hstop, htarget, ↓reduceIte]

theorem walk_cons :
    t.walk f k p (name :: rest) = match t.move f p name rest.isEmpty with
      | .stop r => r
      | .go p' => t.walk f k p' rest
      | .follow p' names => match k with
        | 0 => .error .tooManyLinks
        | k + 1 => t.walk f k p' (names ++ rest) := by
  cases k <;> exact steps_cons

end walk

/-- A walk gets on by a name or by a link. -/
theorem walk_induction {motive : Nat → Location → List String → Prop}
    (nil : ∀ k p, motive k p [])
    (cons : ∀ k p name rest, (∀ p', motive k p' rest) →
      (∀ k' p' names, k = k' + 1 → motive k' p' names) → motive k p (name :: rest)) :
    ∀ k p names, motive k p names := by
  intro k
  induction k with
  | zero =>
    intro p names
    induction names generalizing p with
    | nil => exact nil 0 p
    | cons name rest ih => exact cons 0 p name rest ih (fun k' _ _ hk => by omega)
  | succ k ihk =>
    intro p names
    induction names generalizing p with
    | nil => exact nil (k + 1) p
    | cons name rest ih =>
      refine cons (k + 1) p name rest ih (fun k' p' names hk => ?_)
      obtain rfl : k' = k := by omega
      exact ihk p' names

/-- Ends of walks that differ at most in whether a file is there. -/
def SameEnd : Except OsCode Spot → Except OsCode Spot → Prop
  | .ok x, .ok y => x.place = y.place
  | .error x, .error y =>
    x = y ∨ (x = .noEntry ∨ x = .notDirectory) ∧ (y = .noEntry ∨ y = .notDirectory)
  | _, _ => False

theorem SameEnd.refl (x : Except OsCode Spot) : SameEnd x x := by
  rcases x with x | x
  · exact Or.inl rfl
  · exact (rfl : x.place = x.place)

section ways

variable {t t' : FileTree} {f : Bool}

theorem SameWays.enter (h : SameWays t t') (p : Location) (name : String) (last : Bool) :
    t.enter f p name last = t'.enter f p name last ∨
      ∃ x y, t.enter f p name last = .stop x ∧ t'.enter f p name last = .stop y ∧ SameEnd x y := by
  have hway := h.way? (p ++ [name])
  unfold FileTree.enter
  cases hn : t.node? (p ++ [name]) with
  | none =>
    cases hn' : t'.node? (p ++ [name]) with
    | none => exact Or.inl rfl
    | some n' =>
      cases n' with
      | file octets => right; cases last <;> simp [SameEnd, Spot.place]
      | directory => simp [FileTree.way?, hn, hn', Option.filter, Node.isWay] at hway
      | link target => simp [FileTree.way?, hn, hn', Option.filter, Node.isWay] at hway
  | some n =>
    by_cases hn1 : n.isWay
    · rw [h.node?_eq hn hn1]
      exact Or.inl rfl
    · cases n with
      | directory => exact absurd rfl hn1
      | link target => exact absurd rfl hn1
      | file octets =>
        cases hn' : t'.node? (p ++ [name]) with
        | none => right; cases last <;> simp [SameEnd, Spot.place]
        | some n' =>
          cases n' with
          | file octets => exact Or.inl rfl
          | directory => simp [FileTree.way?, hn, hn', Option.filter, Node.isWay] at hway
          | link target => simp [FileTree.way?, hn, hn', Option.filter, Node.isWay] at hway

/-- Trees with the same ways lead every walk to the same place. -/
theorem SameWays.walk (h : SameWays t t') :
    ∀ k p names, SameEnd (t.walk f k p names) (t'.walk f k p names) := by
  refine walk_induction (fun k p => ?_) (fun k p name rest ih ihk => ?_)
  · rw [walk_nil, walk_nil]
    exact SameEnd.refl _
  · rw [walk_cons, walk_cons]
    have hmove : t.move f p name rest.isEmpty = t'.move f p name rest.isEmpty ∨
        ∃ x y, t.move f p name rest.isEmpty = .stop x ∧ t'.move f p name rest.isEmpty = .stop y ∧
          SameEnd x y := by
      by_cases hname : Ordinary name
      · rw [move_of_ordinary hname, move_of_ordinary hname]
        exact h.enter p name rest.isEmpty
      · exact Or.inl (move_of_not_ordinary hname)
    rcases hmove with hmove | ⟨x, y, hx, hy, hxy⟩
    · rw [hmove]
      cases t'.move f p name rest.isEmpty with
      | stop r => exact SameEnd.refl r
      | go p' => exact ih p'
      | follow p' names =>
        cases k with
        | zero => exact SameEnd.refl _
        | succ k => exact ihk k p' _ rfl
    · rw [hx, hy]
      exact hxy

end ways

section walk

variable {t : FileTree} {f : Bool} {k : Nat} {p : Location}

/-- A name that is not the last one stops a walk only by an error, where a walk that ends with it
does not come to a directory either. -/
theorem move_interior (t : FileTree) (f : Bool) (p : Location) (name : String) (last : Bool) :
    (∃ e r, t.move f p name false = .stop (.error e) ∧ t.move true p name last = .stop r ∧
        ∀ d, r = .ok (.found d) → t.node? d ≠ some .directory) ∨
      (t.move f p name false = t.move true p name last ∧
        ∀ r, t.move f p name false ≠ .stop r) := by
  by_cases hname : Ordinary name
  · rw [move_of_ordinary hname, move_of_ordinary hname, enter, enter]
    cases hn : t.node? (p ++ [name]) with
    | none => exact Or.inl ⟨_, _, rfl, rfl, by cases last <;> simp⟩
    | some n =>
      cases n with
      | file octets =>
        refine Or.inl ⟨_, _, rfl, rfl, ?_⟩
        intro d hd
        cases last with
        | false => cases hd
        | true => cases hd; simp [hn]
      | directory => simp
      | link target => by_cases htarget : target = "" <;> simp [htarget]
  · rw [show t.move f p name false = t.move true p name last from move_of_not_ordinary hname]
    unfold move
    by_cases h1 : name = "."
    · simp [h1]
    by_cases h2 : name = ".."
    · simp [h2]
    have h3 : nameLimit < name.utf8ByteSize :=
      Nat.lt_of_not_le fun h3 => hname ⟨h1, h2, h3⟩
    simp [h1, h2, h3]

/-- A step ends a walk at an entry of the directory that it starts from. -/
theorem move_stop_ok {name : String} {last : Bool} {x : Spot}
    (h : t.move f p name last = .stop (.ok x)) :
    Ordinary name ∧ last = true ∧
      (x = .vacant p name ∧ t.node? (p ++ [name]) = none ∨
        x = .found (p ++ [name]) ∧ ∃ n, t.node? (p ++ [name]) = some n ∧ n ≠ .directory) := by
  by_cases hname : Ordinary name
  · rw [move_of_ordinary hname, enter] at h
    refine ⟨hname, ?_⟩
    cases hn : t.node? (p ++ [name]) with
    | none =>
      rw [hn] at h
      cases last with
      | false => cases h
      | true => cases h; exact ⟨rfl, Or.inl ⟨rfl, rfl⟩⟩
    | some n =>
      rw [hn] at h
      cases n with
      | file octets =>
        cases last with
        | false => cases h
        | true => cases h; exact ⟨rfl, Or.inr ⟨rfl, _, rfl, nofun⟩⟩
      | directory => cases h
      | link target =>
        simp only at h
        split at h
        · next hlast => cases h; exact ⟨hlast.1, Or.inr ⟨rfl, _, rfl, nofun⟩⟩
        split at h <;> cases h
  · exfalso
    unfold move at h
    split at h
    · cases h
    split at h
    · cases h
    split at h
    · cases h
    next h1 h2 h3 => exact hname ⟨h1, h2, Nat.not_lt.mp h3⟩

/-- In a tree a step from a directory goes on in a directory. -/
theorem IsTree.go_directory (ht : t.IsTree) (hp : t.node? p = some .directory) {name : String}
    {last : Bool} {p' : Location} (h : t.move f p name last = .go p') :
    t.node? p' = some .directory := by
  unfold move at h
  split at h
  · cases h; exact hp
  split at h
  · cases h; exact ht.dropLast hp
  split at h
  · cases h
  unfold enter at h
  split at h
  · cases h
  · next hn => cases h; exact hn
  · cases h
  · split at h
    · cases h
    split at h <;> cases h

theorem follow_directory (hp : t.node? p = some .directory) {name : String}
    {last : Bool} {p' : Location} {names : List String}
    (h : t.move f p name last = .follow p' names) : t.node? p' = some .directory := by
  unfold move at h
  split at h
  · cases h
  split at h
  · cases h
  split at h
  · cases h
  unfold enter at h
  split at h
  · cases h
  · cases h
  · cases h
  · split at h
    · cases h
    split at h
    · cases h
    · cases h
      split
      · rfl
      · exact hp

/-- A walk through more names passes through the place that the first of them lead to. -/
theorem walk_split : ∀ k p a {b : List String} {x : Spot}, b ≠ [] →
    t.walk f k p (a ++ b) = .ok x → ∃ d k', k' ≤ k ∧ t.walk true k p a = .ok (.found d) ∧
      t.walk f k' d b = .ok x ∧
      (t.IsTree → t.node? p = some .directory → t.node? d = some .directory) := by
  refine walk_induction (fun k p b x _ h => ?_) (fun k p name rest ih ihk b x hb h => ?_)
  · exact ⟨p, k, Nat.le_refl k, walk_nil, h, fun _ hp => hp⟩
  · have hlast : (rest ++ b).isEmpty = false := by simp [hb]
    rw [List.cons_append, walk_cons, hlast] at h
    rw [walk_cons]
    rcases move_interior t f p name rest.isEmpty with ⟨e, r, he, -, -⟩ | ⟨hmove, hstop⟩
    · rw [he] at h
      cases h
    · rw [← hmove]
      cases hm : t.move f p name false with
      | stop r => exact absurd hm (hstop r)
      | go p' =>
        rw [hm] at h
        obtain ⟨d, k', hk', hd, hx, hdir⟩ := ih p' hb h
        exact ⟨d, k', hk', hd, hx, fun ht hp => hdir ht (ht.go_directory hp hm)⟩
      | follow p' names =>
        rw [hm] at h
        cases k with
        | zero => cases h
        | succ k =>
          simp only [← List.append_assoc] at h
          obtain ⟨d, k', hk', hd, hx, hdir⟩ := ihk k p' (names ++ rest) rfl hb h
          exact ⟨d, k', Nat.le_succ_of_le hk', hd, hx,
            fun ht hp => hdir ht (follow_directory hp hm)⟩

/-- A walk to a directory can be gone on with, and leaves as many links to follow as it has not
used up. -/
theorem walk_append : ∀ k p a {b : List String} {d : Location}, b ≠ [] →
    t.walk true k p a = .ok (.found d) → t.node? d = some .directory →
    ∃ k' ≤ k, ∀ j, t.walk f (k + j) p (a ++ b) = t.walk f (k' + j) d b := by
  refine walk_induction (fun k p b d _ h _ => ?_) (fun k p name rest ih ihk b d hb h hd => ?_)
  · rw [walk_nil] at h
    cases h
    exact ⟨k, Nat.le_refl k, fun _ => rfl⟩
  · have hlast : (rest ++ b).isEmpty = false := by simp [hb]
    rw [walk_cons] at h
    rcases move_interior t f p name rest.isEmpty with ⟨e, r, -, hr, hnot⟩ | ⟨hmove, hstop⟩
    · rw [hr] at h
      exact absurd hd (hnot d h)
    rw [← hmove] at h
    cases hm : t.move f p name false with
    | stop r => exact absurd hm (hstop r)
    | go p' =>
      rw [hm] at h
      obtain ⟨k', hk', hwalk⟩ := ih p' hb h hd
      refine ⟨k', hk', fun j => ?_⟩
      rw [List.cons_append, walk_cons, hlast, hm]
      exact hwalk j
    | follow p' names =>
      rw [hm] at h
      cases k with
      | zero => cases h
      | succ k =>
        obtain ⟨k', hk', hwalk⟩ := ihk k p' (names ++ rest) rfl hb h hd
        refine ⟨k', Nat.le_succ_of_le hk', fun j => ?_⟩
        rw [List.cons_append, walk_cons, hlast, hm, Nat.succ_add, ← hwalk j, List.append_assoc]

/-- A walk that does not give up ends the same way when it may follow more links. -/
theorem walk_mono_of_ne {r : Except OsCode Spot} (hr : r ≠ .error .tooManyLinks) :
    ∀ k p names, t.walk f k p names = r → ∀ j, k ≤ j → t.walk f j p names = r := by
  refine walk_induction (fun k p h j _ => ?_) (fun k p name rest ih ihk h j hj => ?_)
  · rw [walk_nil] at h ⊢
    exact h
  · rw [walk_cons] at h ⊢
    cases hm : t.move f p name rest.isEmpty with
    | stop r => rw [hm] at h; exact h
    | go p' => rw [hm] at h; exact ih p' h j hj
    | follow p' names =>
      rw [hm] at h
      cases k with
      | zero => exact absurd h.symm hr
      | succ k =>
        obtain ⟨j, rfl⟩ := Nat.exists_eq_succ_of_ne_zero (Nat.ne_of_gt (Nat.lt_of_lt_of_le k.succ_pos hj))
        exact ihk k p' _ rfl h j (Nat.le_of_succ_le_succ hj)

/-- A walk that comes to an end comes to the same one when it may follow more links. -/
theorem walk_mono {x : Spot} (k : Nat) (p : Location) (names : List String)
    (h : t.walk f k p names = .ok x) (j : Nat) (hj : k ≤ j) : t.walk f j p names = .ok x :=
  walk_mono_of_ne (by simp) k p names h j hj

/-- Two walks of the same names that come to an end come to the same one. -/
theorem walk_unique {j : Nat} {names : List String} {x y : Spot}
    (hx : t.walk f k p names = .ok x) (hy : t.walk f j p names = .ok y) : x = y := by
  have hx' := walk_mono k p names hx (max k j) (Nat.le_max_left k j)
  have hy' := walk_mono j p names hy (max k j) (Nat.le_max_right k j)
  rw [hx'] at hy'
  exact Except.ok.inj hy'

/-- Nothing goes on from a file. -/
theorem IsTree.walk_past_file (ht : t.IsTree) (hp : t.node? p = some .directory) {j : Nat}
    {a b : List String} {l : Location} {octets : List UInt8}
    (ha : t.walk true k p a = .ok (.found l)) (hl : t.node? l = some (.file octets)) (hb : b ≠ [])
    (x : Spot) : t.walk f j p (a ++ b) ≠ .ok x := by
  intro hx
  obtain ⟨d, j', -, hd, -, hdir⟩ := walk_split j p a hb hx
  obtain rfl := Spot.found.inj (walk_unique ha hd)
  rw [hdir ht hp] at hl
  cases hl

/-- A place that a walk could not find is vacant, and its name is one that an entry may have. -/
theorem walk_vacant {d : Location} {name : String} : ∀ k p names,
    t.walk f k p names = .ok (.vacant d name) → t.node? (d ++ [name]) = none ∧ Ordinary name ∧
      (t.IsTree → t.node? p = some .directory → t.node? d = some .directory) := by
  refine walk_induction (fun k p h => ?_) (fun k p first rest ih ihk h => ?_)
  · rw [walk_nil] at h
    cases h
  · rw [walk_cons] at h
    cases hm : t.move f p first rest.isEmpty with
    | go p' =>
      rw [hm] at h
      obtain ⟨hn, hname, hdir⟩ := ih p' h
      exact ⟨hn, hname, fun ht hp => hdir ht (ht.go_directory hp hm)⟩
    | follow p' names =>
      rw [hm] at h
      cases k with
      | zero => cases h
      | succ k =>
        obtain ⟨hn, hname, hdir⟩ := ihk k p' _ rfl h
        exact ⟨hn, hname, fun ht hp => hdir ht (follow_directory hp hm)⟩
    | stop r =>
      rw [hm] at h
      subst h
      obtain ⟨hname, -, ⟨hx, hn⟩ | ⟨hx, -⟩⟩ := move_stop_ok hm
      · cases hx
        exact ⟨hn, hname, fun _ hp => hp⟩
      · cases hx

/-- A name of a walk that comes to an end is one that an entry can have, or leads nowhere or up. -/
theorem ordinary_of_walk {name : String} {rest : List String} {x : Spot} (hdot : name ≠ ".")
    (hup : name ≠ "..") (h : t.walk f k p (name :: rest) = .ok x) : Ordinary name := by
  refine ⟨hdot, hup, Nat.not_lt.mp fun hsize => ?_⟩
  rw [walk_cons, move, if_neg hdot, if_neg hup, if_pos hsize] at h
  cases h

/-- A walk that finds something goes on into a directory, ends at a file, or follows a link. -/
theorem walk_ordinary_cases {name : String} {rest : List String} {l : Location} (hname : Ordinary name)
    (h : t.walk true k p (name :: rest) = .ok (.found l)) :
    t.node? (p ++ [name]) = some .directory ∧ t.walk true k (p ++ [name]) rest = .ok (.found l) ∨
    (∃ octets, t.node? (p ++ [name]) = some (.file octets)) ∧ rest = [] ∧ l = p ++ [name] ∨
    ∃ target j, t.node? (p ++ [name]) = some (.link target) ∧ k = j + 1 ∧
      t.walk true j (if (Route.parse target).absolute then [] else p)
        ((Route.parse target).steps ++ rest) = .ok (.found l) := by
  rw [walk_cons, move_of_ordinary hname, enter] at h
  cases hn : t.node? (p ++ [name]) with
  | none => rw [hn] at h; cases rest <;> cases h
  | some n =>
    rw [hn] at h
    cases n with
    | directory => exact Or.inl ⟨rfl, h⟩
    | file octets =>
      cases rest with
      | nil => cases h; exact Or.inr (Or.inl ⟨⟨octets, rfl⟩, rfl, rfl⟩)
      | cons _ _ => cases h
    | link target =>
      by_cases htarget : target = ""
      · simp [htarget] at h
      · simp only [Bool.not_true, Bool.false_eq_true, and_false, ↓reduceIte, htarget] at h
        cases k with
        | zero => cases h
        | succ k => exact Or.inr (Or.inr ⟨target, k, rfl, rfl, h⟩)

/-- Where a step does not ask for what is at `d`, it is the same without that. -/
theorem move_erase {d : Location} {name : String} {last : Bool} (hd : d ≠ [])
    (h : ¬ (Ordinary name ∧ p ++ [name] = d)) :
    (t.erase d).move f p name last = t.move f p name last := by
  by_cases hname : Ordinary name
  · have hne : p ++ [name] ≠ d := fun he => h ⟨hname, he⟩
    rw [move_of_ordinary hname, move_of_ordinary hname, enter, enter, node?_erase hd, if_neg hne]
  · exact move_of_not_ordinary hname

/-- Without what is at `d` a step to it stops. -/
theorem move_erase_self {name : String} {last : Bool} (hname : Ordinary name) :
    (t.erase (p ++ [name])).move f p name last =
      .stop (if last then .ok (.vacant p name) else .error .noEntry) := by
  rw [move_of_ordinary hname, enter, node?_erase (by simp), if_pos rfl]

/-- What a walk finds is found also where more is there. -/
theorem walk_of_erase {d : Location} (hd : d ≠ []) {l : Location} : ∀ k p names,
    (t.erase d).walk f k p names = .ok (.found l) → t.walk f k p names = .ok (.found l) := by
  refine walk_induction (fun k p h => ?_) (fun k p name rest ih ihk h => ?_)
  · rw [walk_nil] at h ⊢
    exact h
  by_cases hpd : Ordinary name ∧ p ++ [name] = d
  · obtain ⟨hname, rfl⟩ := hpd
    rw [walk_cons, move_erase_self hname] at h
    cases rest <;> cases h
  rw [walk_cons, move_erase hd hpd] at h
  rw [walk_cons]
  cases hm : t.move f p name rest.isEmpty with
  | stop r => rw [hm] at h; exact h
  | go p' => rw [hm] at h; exact ih p' h
  | follow p' names =>
    rw [hm] at h
    cases k with
    | zero => cases h
    | succ k => exact ihk k p' _ rfl h

/-- A walk that ends somewhere does so without what is at `d`, or ends there, or goes through a link
that is there. -/
theorem walk_erase_or {d : Location} (hd : d ≠ []) (hdir : t.node? d ≠ some .directory)
    {l : Location} : ∀ k p names, t.walk true k p names = .ok (.found l) →
    (t.erase d).walk true k p names = .ok (.found l) ∨ l = d ∨
      ∃ target k' rest, t.node? d = some (.link target) ∧ k' < k ∧
        t.walk true k' (if (Route.parse target).absolute then [] else d.dropLast)
          ((Route.parse target).steps ++ rest) = .ok (.found l) := by
  refine walk_induction (fun k p h => ?_) (fun k p name rest ih ihk h => ?_)
  · rw [walk_nil] at h ⊢
    exact Or.inl h
  by_cases hpd : Ordinary name ∧ p ++ [name] = d
  · obtain ⟨hname, rfl⟩ := hpd
    right
    rcases walk_ordinary_cases hname h with ⟨hn, -⟩ | ⟨-, -, hl⟩ | ⟨target, j, htarget, rfl, hwalk⟩
    · exact absurd hn hdir
    · exact Or.inl hl
    · refine Or.inr ⟨target, j, rest, htarget, Nat.lt_succ_self j, ?_⟩
      rwa [List.dropLast_concat]
  rw [walk_cons] at h ⊢
  rw [move_erase hd hpd]
  cases hm : t.move true p name rest.isEmpty with
  | stop r => rw [hm] at h; exact Or.inl h
  | go p' => rw [hm] at h; exact ih p' h
  | follow p' names =>
    rw [hm] at h
    cases k with
    | zero => cases h
    | succ k =>
      rcases ihk k p' _ rfl h with h | h | ⟨target, k', rest', ht, hk', h⟩
      · exact Or.inl h
      · exact Or.inr (Or.inl h)
      · exact Or.inr (Or.inr ⟨target, k', rest', ht, Nat.lt_succ_of_lt hk', h⟩)

/-- Something stands wherever a walk through a tree ends. -/
theorem IsTree.node?_of_walk (ht : t.IsTree) {l : Location} : ∀ k p names,
    t.node? p = some .directory → t.walk f k p names = .ok (.found l) → t.node? l ≠ none := by
  refine walk_induction (fun k p hp h => ?_) (fun k p name rest ih ihk hp h => ?_)
  · rw [walk_nil] at h
    cases h
    simp [hp]
  · rw [walk_cons] at h
    cases hm : t.move f p name rest.isEmpty with
    | go p' => rw [hm] at h; exact ih p' (ht.go_directory hp hm) h
    | follow p' names =>
      rw [hm] at h
      cases k with
      | zero => cases h
      | succ k => exact ihk k p' _ rfl (follow_directory hp hm) h
    | stop r =>
      rw [hm] at h
      subst h
      obtain ⟨-, -, ⟨hx, -⟩ | ⟨hx, n, hn, -⟩⟩ := move_stop_ok hm
      · cases hx
      · cases hx
        simp [hn]

/-- Without what is at `d` a walk ends where it did, or stops because nothing is at `d`. -/
theorem walk_without {d : Location} (hd : d ≠ []) {l : Location} : ∀ k p names,
    t.walk f k p names = .ok (.found l) →
    (t.erase d).walk f k p names = .ok (.found l) ∨
      (t.erase d).walk f k p names = .error .noEntry ∨
        ∃ directory name, directory ++ [name] = d ∧
          (t.erase d).walk f k p names = .ok (.vacant directory name) := by
  refine walk_induction (fun k p h => ?_) (fun k p name rest ih ihk h => ?_)
  · rw [walk_nil] at h ⊢
    exact Or.inl h
  rw [walk_cons] at h
  simp only [walk_cons]
  by_cases hpd : Ordinary name ∧ p ++ [name] = d
  · obtain ⟨hname, rfl⟩ := hpd
    right
    rw [move_erase_self hname]
    cases rest with
    | nil => exact Or.inr ⟨p, name, rfl, rfl⟩
    | cons _ _ => exact Or.inl rfl
  rw [move_erase hd hpd]
  cases hm : t.move f p name rest.isEmpty with
  | stop r => rw [hm] at h; exact Or.inl h
  | go p' => rw [hm] at h; exact ih p' h
  | follow p' names =>
    rw [hm] at h
    cases k with
    | zero => cases h
    | succ k => exact ihk k p' _ rfl h

/-- What is found without what is at `d` needs no more links than before. -/
theorem walk_erase_within {d : Location} (hd : d ≠ []) {l : Location} {j k : Nat} {p : Location}
    {names : List String} {x : Spot} (h : (t.erase d).walk f j p names = .ok (.found l))
    (hx : t.walk f k p names = .ok x) : (t.erase d).walk f k p names = .ok (.found l) := by
  cases walk_unique hx (walk_of_erase hd _ _ _ h)
  have hmore := walk_mono j p names h (max j k) (Nat.le_max_left j k)
  rcases walk_without hd k p names hx with hsame | hgone | ⟨directory, name, -, hvacant⟩
  · exact hsame
  · rw [walk_mono_of_ne (by simp) k p names hgone (max j k) (Nat.le_max_right j k)] at hmore
    cases hmore
  · rw [walk_mono k p names hvacant (max j k) (Nat.le_max_right j k)] at hmore
    cases hmore

end walk

end FileTree
end LintDebt
