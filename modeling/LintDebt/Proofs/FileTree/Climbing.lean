import Mathlib.Data.Nat.Find
import LintDebt.Proofs.FileTree.Straight

/-! # Resolutions, step by step

One step of a resolution goes on from a path, meets a link again while that is being resolved, or goes
into a link. `stride` is that step, and `climb_cons` says that a resolution is made of such steps, as
`walk_cons` says it of a walk. `asked` lists the paths that a resolution asks the system about.

Where the walk of a path ends somewhere, its resolution ends at a straight path to that place: it goes
where the walk goes, keeps its path straight, and knows of each link that it has been through where
that leads. It cannot meet a link again while that is being resolved, because the walk from there on
would need as many links as the walk of that link, which needs more. -/

namespace LintDebt.FileTree

/-- What a resolution does at one name. -/
inductive Stride where
  | on (path : Path)
  | back (link : Path)
  | into (link start : Path) (parts : List String)

/-- One step of a resolution. -/
def stride (t : FileTree) (links : Links) (path : Path) (name : String) : Stride :=
  if name = "" ∨ name = "." then .on path
  else if name = ".." then .on path.up
  else
    let next := { path with names := path.names ++ [name] }
    match t.lstat next.text with
    | .ok (.link target) =>
      match links.lookup next with
      | some (some known) => .on known
      | some none => .back next
      | none =>
        .into next (if (Path.parse target).root = .relative then path else ⟨.absolute, []⟩)
          (slashParts target)
    | _ => .on next

/-- The path under which a resolution asks about a name. -/
def asks (path : Path) (name : String) : List Path :=
  if name = "" ∨ name = "." ∨ name = ".." then [] else [{ path with names := path.names ++ [name] }]

/-- The paths that a resolution asks about, with those that the resolutions of targets ask about. -/
def askedOver (t : FileTree) (onLink : Links → Path → List String → Climb)
    (inside : Links → Path → List String → List Path) (links : Links) (path : Path) :
    List String → List Path
  | [] => []
  | name :: rest => asks path name ++ match t.stride links path name with
    | .on path => t.askedOver onLink inside links path rest
    | .back _ => []
    | .into link start parts =>
      let inner := onLink ((link, none) :: links) start parts
      inside ((link, none) :: links) start parts ++ if inner.ending = .whole then
        t.askedOver onLink inside ((link, some inner.path) :: inner.links) inner.path rest
      else []

/-- How the target of a link is resolved, with so many links more to go into. -/
def within (t : FileTree) : (depth : Nat) → Links → Path → List String → Climb
  | 0 => fun links path parts => ⟨links, path.extend parts, .tooDeep⟩
  | depth + 1 => t.climbWithin depth

def askedWithin (t : FileTree) : (depth : Nat) → Links → Path → List String → List Path
  | 0 => t.askedOver (t.within 0) fun _ _ _ => []
  | depth + 1 => t.askedOver (t.within (depth + 1)) (t.askedWithin depth)

/-- The paths of which the resolution of a path asks whether they are links. -/
def asked (t : FileTree) (p : Path) : List Path := t.askedWithin depthLimit [] p.origin p.names

/-- Holds for a path that ends at a link, whether or not it is too long to be asked about. -/
def endsAtLink (t : FileTree) (q : Path) : Bool :=
  match t.walk false linkLimit (t.origin q) q.names with
  | .ok (.found l) => (t.node? l matches some (.link _))
  | _ => false

/-- Holds for a path whose resolution overlooks no link because of the length of its path. -/
def Surveyed (t : FileTree) (p : Path) : Prop :=
  ∀ q ∈ t.asked p, t.endsAtLink q = true → q.text.utf8ByteSize ≤ pathLimit

instance (t : FileTree) (p : Path) : Decidable (t.Surveyed p) :=
  inferInstanceAs (Decidable (∀ q ∈ t.asked p, t.endsAtLink q = true → q.text.utf8ByteSize ≤ pathLimit))

variable {t : FileTree} {k : Nat} {onLink : Links → Path → List String → Climb} {links : Links}
  {path start : Path} {place d l : Location} {name : String} {names rest parts : List String}

/-- A name is looked up, unless it leads nowhere or up. -/
theorem stride_name (hempty : name ≠ "") (hdot : name ≠ ".") (hup : name ≠ "..") :
    t.stride links path name = match t.lstat (Path.mk path.root (path.names ++ [name])).text with
      | .ok (.link target) =>
        match links.lookup ⟨path.root, path.names ++ [name]⟩ with
        | some (some known) => .on known
        | some none => .back ⟨path.root, path.names ++ [name]⟩
        | none =>
          .into ⟨path.root, path.names ++ [name]⟩
            (if (Path.parse target).root = .relative then path else ⟨.absolute, []⟩) (slashParts target)
      | _ => .on ⟨path.root, path.names ++ [name]⟩ := by
  rw [stride, if_neg (not_or.mpr ⟨hempty, hdot⟩), if_neg hup]

/-- What is no link, as far as can be told, becomes part of the path. -/
theorem stride_on (hempty : name ≠ "") (hdot : name ≠ ".") (hup : name ≠ "..")
    (hlink : ∀ target, t.lstat (Path.mk path.root (path.names ++ [name])).text ≠ .ok (.link target)) :
    t.stride links path name = .on ⟨path.root, path.names ++ [name]⟩ := by
  rw [stride_name hempty hdot hup]
  split
  · next target hl => exact absurd hl (hlink target)
  · rfl

theorem climb_cons : t.climb onLink links path (name :: rest) = match t.stride links path name with
    | .on path => t.climb onLink links path rest
    | .back link => ⟨links, link.extend rest, .looped⟩
    | .into link start parts =>
      let inner := onLink ((link, none) :: links) start parts
      if inner.ending = .whole then
        t.climb onLink ((link, some inner.path) :: inner.links) inner.path rest
      else { inner with path := inner.path.extend rest } := by
  rw [climb, stride]
  by_cases hskip : name = "" ∨ name = "."
  · rw [if_pos hskip, if_pos hskip]
  by_cases hup : name = ".."
  · rw [if_neg hskip, if_neg hskip, if_pos hup, if_pos hup]
  rw [if_neg hskip, if_neg hskip, if_neg hup, if_neg hup]
  dsimp only
  rcases t.lstat (Path.mk path.root (path.names ++ [name])).text with e | (octets | _ | target)
  · rfl
  · rfl
  · rfl
  · dsimp only
    rcases links.lookup (Path.mk path.root (path.names ++ [name])) with _ | _ | known <;> rfl

theorem climbWithin_eq (depth : Nat) : t.climbWithin depth = t.climb (t.within depth) := by
  cases depth <;> rfl

/-! ### Walks through one name -/

/-- A name leads to what stands there, or goes on with the target of the link that stands there. -/
theorem walk_name_cases (hdot : name ≠ ".") (hup : name ≠ "..")
    (h : t.walk true k place [name] = .ok (.found d)) :
    (d = place ++ [name] ∧ t.node? d ≠ none ∧ ∀ target, t.node? d ≠ some (.link target)) ∨
      ∃ target j, t.node? (place ++ [name]) = some (.link target) ∧ k = j + 1 ∧
        t.walk true j (if (Route.parse target).absolute then [] else place) (Route.parse target).steps =
          .ok (.found d) := by
  rcases walk_ordinary_cases (ordinary_of_walk hdot hup h) h with
    ⟨hn, h⟩ | ⟨⟨octets, hn⟩, -, rfl⟩ | ⟨target, j, hn, hk, h⟩
  · rw [walk_nil] at h
    cases h
    exact Or.inl ⟨rfl, by simp [hn], by simp [hn]⟩
  · exact Or.inl ⟨rfl, by simp [hn], by simp [hn]⟩
  · rw [List.append_nil] at h
    exact Or.inr ⟨target, j, hn, hk, h⟩

/-- A walk that ends somewhere does so within some number of links, and not within fewer. -/
theorem exists_least_walk (h : t.walk true k place names = .ok (.found d)) :
    ∃ m ≤ k, t.walk true m place names = .ok (.found d) ∧
      ∀ j < m, ∀ x, t.walk true j place names ≠ .ok x := by
  classical
  have hex : ∃ m, t.walk true m place names = .ok (.found d) := ⟨k, h⟩
  refine ⟨Nat.find hex, Nat.find_min' hex h, Nat.find_spec hex, fun j hj x hx => ?_⟩
  rw [walk_unique hx h] at hx
  exact Nat.find_min hex hj hx

/-- A text is walked through its parts, whether or not a slash at its end asks for a directory. -/
theorem walk_parts {s : String} (h : t.walk true k place (Route.parse s).steps = .ok (.found d)) :
    t.walk true k place ((slashParts s).filter (· ≠ "")) = .ok (.found d) := by
  change t.walk true k place (Route.parse s).names = _
  rw [Route.steps] at h
  split at h
  · obtain ⟨d', k', -, hd', hdot, -⟩ := walk_split _ _ _ (List.cons_ne_nil "." []) h
    rw [walk_dot, walk_nil] at hdot
    cases hdot
    exact hd'
  · exact h

/-! ### Where a resolution arrives -/

/-- Holds for a table that tells of each link that was resolved where it leads. -/
def Known (t : FileTree) (links : Links) : Prop :=
  ∀ q r, links.lookup q = some (some r) →
    ∃ k d, t.walk true k (t.origin q) q.names = .ok (.found d) ∧ t.Straight r d

/-- Holds for a table of which no link that is being resolved can be walked within so many links. -/
def OpenBeyond (t : FileTree) (k : Nat) (links : Links) : Prop :=
  ∀ q, links.lookup q = some none → ∀ x, t.walk true k (t.origin q) q.names ≠ .ok x

/-- Holds for a resolution under way from a straight path to `place`, if the walk from there through
at most `k` links ends at `l`. It will ask about the paths in `asked`. -/
structure Bound (t : FileTree) (k : Nat) (links : Links) (place : Location) (path : Path)
    (names : List String) (asked : List Path) (l : Location) : Prop where
  walk : t.walk true k place (names.filter (· ≠ "")) = .ok (.found l)
  straight : t.Straight path place
  directory : names.filter (· ≠ "") ≠ [] → t.node? place = some .directory
  known : t.Known links
  beyond : t.OpenBeyond k links
  short : ∀ q ∈ asked, t.endsAtLink q = true → q.text.utf8ByteSize ≤ pathLimit

/-- Holds for a resolution that ended at a straight path to `l`. -/
structure Arrived (t : FileTree) (links : Links) (c : Climb) (l : Location) : Prop where
  whole : c.ending = .whole
  straight : t.Straight c.path l
  known : t.Known c.links
  opened : ∀ q, c.links.lookup q = some none → links.lookup q = some none

theorem OpenBeyond.mono {j : Nat} (h : t.OpenBeyond k links) (hj : j ≤ k) : t.OpenBeyond j links :=
  fun q hq x hx => h q hq x (walk_mono j _ _ hx k hj)

theorem lookup_cons_eq {q link : Path} {entry : Option Path} :
    ((link, entry) :: links).lookup q = if q = link then some entry else links.lookup q := by
  rw [List.lookup_cons]
  by_cases hq : q = link
  · rw [if_pos hq, beq_iff_eq.mpr hq]
  · rw [if_neg hq, beq_eq_false_iff_ne.mpr hq]

theorem Known.opening (h : t.Known links) (link : Path) : t.Known ((link, none) :: links) := by
  intro q r hq
  rw [lookup_cons_eq] at hq
  split at hq
  · cases hq
  · exact h q r hq

theorem Known.closing {link r : Path} (h : t.Known links)
    (hwalk : t.walk true k (t.origin link) link.names = .ok (.found d)) (hr : t.Straight r d) :
    t.Known ((link, some r) :: links) := by
  intro q r' hq
  rw [lookup_cons_eq] at hq
  split at hq
  · next hlink =>
    cases hq
    rw [hlink]
    exact ⟨k, d, hwalk, hr⟩
  · exact h q r' hq

theorem OpenBeyond.opening {link : Path} (h : t.OpenBeyond k links)
    (hlink : ∀ x, t.walk true k (t.origin link) link.names ≠ .ok x) :
    t.OpenBeyond k ((link, none) :: links) := by
  intro q hq
  rw [lookup_cons_eq] at hq
  split at hq
  · next heq =>
    rw [heq]
    exact hlink
  · exact h q hq

/-- A link that was resolved is not open any more. -/
theorem Arrived.opened_closing {link r : Path} {c : Climb} (h : t.Arrived ((link, none) :: links) c d)
    {q : Path} (hq : ((link, some r) :: c.links).lookup q = some none) :
    links.lookup q = some none := by
  rw [lookup_cons_eq] at hq
  split at hq
  · cases hq
  · next hne =>
    have hopen := h.opened q hq
    rwa [lookup_cons_eq, if_neg hne] at hopen

theorem Straight.endsAtLink (h : t.Straight path place) (hplace : t.node? place = some .directory)
    (hname : IsEntryName name) {target : String}
    (htarget : t.node? (place ++ [name]) = some (.link target)) :
    t.endsAtLink ⟨path.root, path.names ++ [name]⟩ = true := by
  have hwalk : t.walk false linkLimit (t.origin path) (path.names ++ [name]) =
      .ok (.found (place ++ [name])) := by
    rw [h.walk_append hplace linkLimit (List.cons_ne_nil name []),
      walk_entry hname.toOrdinary fun hfalse => absurd hfalse Bool.false_ne_true, htarget]
  change (match t.walk false linkLimit (t.origin path) (path.names ++ [name]) with
    | .ok (.found l) => (t.node? l matches some (.link _))
    | _ => false) = true
  rw [hwalk]
  simp [htarget]

/-- In the directory of a straight path a link is seen, unless the path of it is too long. -/
theorem Straight.stride_link (h : t.Straight path place) (hplace : t.node? place = some .directory)
    (hname : IsEntryName name) {target : String}
    (htarget : t.node? (place ++ [name]) = some (.link target))
    (hsize : (Path.mk path.root (path.names ++ [name])).text.utf8ByteSize ≤ pathLimit) :
    t.stride links path name = match links.lookup ⟨path.root, path.names ++ [name]⟩ with
      | some (some known) => .on known
      | some none => .back ⟨path.root, path.names ++ [name]⟩
      | none =>
        .into ⟨path.root, path.names ++ [name]⟩
          (if (Path.parse target).root = .relative then path else ⟨.absolute, []⟩) (slashParts target) := by
  rw [stride_name hname.nonempty hname.ne_dot hname.ne_up,
    (h.lstat_link hplace hname).mpr ⟨hsize, htarget⟩]

/-- The target of a link is seen from the directory that the link is in, unless it is absolute. -/
theorem Straight.target (h : t.Straight path place) (hplace : t.node? place = some .directory)
    (target : String) :
    t.Straight (if (Path.parse target).root = .relative then path else ⟨.absolute, []⟩)
        (if (Route.parse target).absolute then [] else place) ∧
      t.node? (if (Route.parse target).absolute then [] else place) = some .directory := by
  simp only [parse_root_eq_relative]
  cases (Route.parse target).absolute
  · exact ⟨h, hplace⟩
  · exact ⟨.start_absolute t, rfl⟩

namespace Bound

variable {inside : Links → Path → List String → List Path} {link path' : Path} {place' : Location} {k' : Nat}
  (hb : t.Bound k links place path (name :: rest) (t.askedOver onLink inside links path (name :: rest)) l)
include hb

/-- What is left to do when a step goes on. -/
theorem on (hstride : t.stride links path name = .on path') (hk : k' ≤ k)
    (hwalk : t.walk true k' place' (rest.filter (· ≠ "")) = .ok (.found l)) (hpath : t.Straight path' place')
    (hdir : rest.filter (· ≠ "") ≠ [] → t.node? place' = some .directory) :
    t.Bound k' links place' path' rest (t.askedOver onLink inside links path' rest) l where
  walk := hwalk
  straight := hpath
  directory := hdir
  known := hb.known
  beyond := hb.beyond.mono hk
  short := fun q hq => hb.short q <| by
    rw [askedOver, hstride]
    exact List.mem_append_right _ hq

/-- What is to be done inside a link: its target takes one link less than the way through it, and the
link itself cannot be walked within so few. -/
theorem into (hstride : t.stride links path name = .into link start parts) (hk : k' ≤ k)
    (hwalk : t.walk true k' place' (parts.filter (· ≠ "")) = .ok (.found d))
    (hstart : t.Straight start place') (hdir : t.node? place' = some .directory)
    (hlink : ∀ x, t.walk true k' (t.origin link) link.names ≠ .ok x) :
    t.Bound k' ((link, none) :: links) place' start parts (inside ((link, none) :: links) start parts) d where
  walk := hwalk
  straight := hstart
  directory := fun _ => hdir
  known := hb.known.opening link
  beyond := (hb.beyond.mono hk).opening hlink
  short := fun q hq => hb.short q <| by
    rw [askedOver, hstride]
    exact List.mem_append_right _ (List.mem_append_left _ hq)

/-- What is left to do behind a link that was resolved. -/
theorem past (hstride : t.stride links path name = .into link start parts) (hk : k' ≤ k)
    (harrived : t.Arrived ((link, none) :: links) (onLink ((link, none) :: links) start parts) d)
    (hlink : t.walk true k (t.origin link) link.names = .ok (.found d))
    (hwalk : t.walk true k' d (rest.filter (· ≠ "")) = .ok (.found l))
    (hdir : rest.filter (· ≠ "") ≠ [] → t.node? d = some .directory) :
    let inner := onLink ((link, none) :: links) start parts
    t.Bound k' ((link, some inner.path) :: inner.links) d inner.path rest
      (t.askedOver onLink inside ((link, some inner.path) :: inner.links) inner.path rest) l where
  walk := hwalk
  straight := harrived.straight
  directory := hdir
  known := harrived.known.closing hlink harrived.straight
  beyond := fun q hq => (hb.beyond.mono hk) q (harrived.opened_closing hq)
  short := fun q hq => hb.short q <| by
    rw [askedOver, hstride]
    dsimp only
    rw [if_pos harrived.whole]
    exact List.mem_append_right _ (List.mem_append_right _ hq)

end Bound

section arriving

variable {depth : Nat} {inside : Links → Path → List String → List Path} {place' : Location} {path' : Path}
  {k' : Nat} {target : String}

/-- Holds if the resolution of these names arrives where the walk through them arrives, as long as that
takes at most so many links. -/
def Arrives (t : FileTree) (depth : Nat) (onLink : Links → Path → List String → Climb)
    (inside : Links → Path → List String → List Path) (names : List String) : Prop :=
  ∀ k links place path l, k ≤ depth →
    t.Bound k links place path names (t.askedOver onLink inside links path names) l →
      t.Arrived links (t.climb onLink links path names) l

/-- Holds if the resolutions of targets arrive where the walks arrive that take fewer links. -/
def ArrivesInside (t : FileTree) (depth : Nat) (onLink : Links → Path → List String → Climb)
    (inside : Links → Path → List String → List Path) : Prop :=
  ∀ k < depth, ∀ links place path names l, t.Bound k links place path names (inside links path names) l →
    t.Arrived links (onLink links path names) l

/-- A resolution that goes on arrives if the rest of it does. -/
theorem Arrives.on (h : t.Arrives depth onLink inside rest)
    (hb : t.Bound k links place path (name :: rest) (t.askedOver onLink inside links path (name :: rest)) l)
    (hk : k ≤ depth) (hstride : t.stride links path name = .on path') (hk' : k' ≤ k)
    (hrest : t.walk true k' place' (rest.filter (· ≠ "")) = .ok (.found l)) (hpath : t.Straight path' place')
    (hdir : rest.filter (· ≠ "") ≠ [] → t.node? place' = some .directory) :
    t.Arrived links (t.climb onLink links path (name :: rest)) l := by
  rw [climb_cons, hstride]
  exact h k' links place' path' l (Nat.le_trans hk' hk) (hb.on hstride hk' hrest hpath hdir)

/-- A resolution arrives behind a link. The link is new, or was resolved before, but is not being
resolved: the walk through its target, which takes `j` links and not fewer, is not that long. -/
theorem Arrives.through (h : t.Arrives depth onLink inside rest) (hinner : t.ArrivesInside depth onLink inside)
    (hb : t.Bound k links place path (name :: rest) (t.askedOver onLink inside links path (name :: rest)) l)
    (hk : k ≤ depth) (hplace : t.node? place = some .directory) (hname : IsEntryName name)
    (htarget : t.node? (place ++ [name]) = some (.link target)) {j : Nat} (hj : j < k)
    (hd : t.walk true k place [name] = .ok (.found d))
    (hinside : t.walk true j (if (Route.parse target).absolute then [] else place)
      (Route.parse target).steps = .ok (.found d))
    (hless : ∀ x, t.walk true j place [name] ≠ .ok x) (hk' : k' ≤ k)
    (hrest : t.walk true k' d (rest.filter (· ≠ "")) = .ok (.found l))
    (hdir : rest.filter (· ≠ "") ≠ [] → t.node? d = some .directory) :
    t.Arrived links (t.climb onLink links path (name :: rest)) l := by
  have hthrough : ∀ j, t.walk true j (t.origin ⟨path.root, path.names ++ [name]⟩)
      (path.names ++ [name]) = t.walk true j place [name] :=
    fun j => hb.straight.walk_append hplace j (List.cons_ne_nil name [])
  have hasks : asks path name = [⟨path.root, path.names ++ [name]⟩] :=
    if_neg (by simp [hname.nonempty, hname.ne_dot, hname.ne_up])
  have hsize := hb.short ⟨path.root, path.names ++ [name]⟩ (by rw [askedOver, hasks]; simp)
    (hb.straight.endsAtLink hplace hname htarget)
  have hstride : t.stride links path name = _ := hb.straight.stride_link hplace hname htarget hsize
  rcases hlookup : links.lookup ⟨path.root, path.names ++ [name]⟩ with _ | _ | known
  · rw [hlookup] at hstride
    obtain ⟨hstart, hstartdir⟩ := hb.straight.target hplace target
    have harrived := hinner j (Nat.lt_of_lt_of_le hj hk) _ _ _ _ d <|
      hb.into hstride (Nat.le_of_lt hj) (walk_parts hinside) hstart hstartdir fun x hx =>
        hless x (by rwa [hthrough] at hx)
    have hrec := h k' _ d _ l (Nat.le_trans hk' hk) <|
      hb.past hstride hk' harrived ((hthrough k).trans hd) hrest hdir
    rw [climb_cons, hstride]
    dsimp only
    rw [if_pos harrived.whole]
    exact ⟨hrec.whole, hrec.straight, hrec.known, fun q hq => harrived.opened_closing (hrec.opened q hq)⟩
  · exact absurd ((hthrough k).trans hd) (hb.beyond _ hlookup _)
  · obtain ⟨j', d', hd', hknown⟩ := hb.known _ _ hlookup
    rw [hthrough] at hd'
    obtain rfl := Spot.found.inj (walk_unique hd hd')
    rw [hlookup] at hstride
    exact h.on hb hk hstride hk' hrest hknown hdir

/-- A resolution arrives where the walk arrives if the resolutions of targets do, which have fewer
links left to go through. -/
theorem climb_arrives (ht : t.Named) (hinner : t.ArrivesInside depth onLink inside) :
    ∀ names, t.Arrives depth onLink inside names := by
  intro names
  induction names with
  | nil =>
    intro k links place path l _ hb
    have hwalk := hb.walk
    rw [List.filter_nil, walk_nil] at hwalk
    cases hwalk
    exact ⟨rfl, hb.straight, hb.known, fun _ => id⟩
  | cons name rest ih =>
    intro k links place path l hk hb
    by_cases hempty : name = ""
    · have hfilter : (name :: rest).filter (· ≠ "") = rest.filter (· ≠ "") :=
        List.filter_cons_of_neg (by simp [hempty])
      refine ih.on hb hk (by rw [stride, if_pos (Or.inl hempty)]) (Nat.le_refl k) ?_ hb.straight ?_
      · rw [← hfilter]
        exact hb.walk
      · rw [← hfilter]
        exact hb.directory
    have hfilter : (name :: rest).filter (· ≠ "") = name :: rest.filter (· ≠ "") :=
      List.filter_cons_of_pos (by simpa using hempty)
    have hwalk := hb.walk
    have hplace := hb.directory (by rw [hfilter]; nofun)
    rw [hfilter] at hwalk
    by_cases hdot : name = "."
    · rw [hdot, walk_dot] at hwalk
      exact ih.on hb hk (by rw [stride, if_pos (Or.inr hdot)]) (Nat.le_refl k) hwalk hb.straight
        fun _ => hplace
    by_cases hup : name = ".."
    · rw [hup, walk_up] at hwalk
      exact ih.on hb hk (by rw [hup]; rfl) (Nat.le_refl k) hwalk (hb.straight.up hplace)
        fun _ => ht.dropLast hplace
    obtain ⟨d, k', hk', hd, hrest, hdir⟩ := walk_first ht.toIsTree hplace hwalk
    obtain ⟨m, hm, hleast, hless⟩ := exists_least_walk hd
    rcases walk_name_cases hdot hup hleast with ⟨rfl, hn, hlink⟩ | ⟨target, j, htarget, rfl, hinside⟩
    · have hname := ht.entryName hn
      refine ih.on hb hk ?_ hk' hrest (hb.straight.append hplace hname hlink hn) hdir
      exact stride_on hempty hdot hup fun target hl =>
        hlink target ((hb.straight.lstat_link hplace hname).mp hl).2
    · exact ih.through hinner hb hk hplace (ht.entryName (by rw [htarget]; simp)) htarget hm hd hinside
        (hless j (Nat.lt_succ_self j)) hk' hrest hdir

end arriving

/-- A resolution arrives where the walk arrives. -/
theorem climbWithin_arrives (ht : t.Named) : ∀ depth k links place path names l, k ≤ depth →
    t.Bound k links place path names (t.askedWithin depth links path names) l →
      t.Arrived links (t.climbWithin depth links path names) l := by
  intro depth
  induction depth with
  | zero =>
    intro k links place path names l
    exact climb_arrives ht (fun k hk => absurd hk (Nat.not_lt_zero k)) names k links place path l
  | succ depth ih =>
    intro k links place path names l
    refine climb_arrives ht (fun k hk links place path names l => ?_) names k links place path l
    exact ih k links place path names l (Nat.le_of_lt_succ hk)

end LintDebt.FileTree
