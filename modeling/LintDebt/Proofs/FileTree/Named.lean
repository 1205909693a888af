import Mathlib.Data.List.Induction
import LintDebt.Proofs.FileTree.PathText
import LintDebt.Proofs.FileTree.Shapes

/-! # Trees with names that the system admits

In such a tree the names of a place lead to it, whatever links there are elsewhere: what stands above
something is a directory, and not a link to one. So a place is found under its own path, unless that
is too long, or a link that stands at the place leads on. -/

namespace LintDebt

/-- Holds for a name that something in a directory can have. -/
structure IsEntryName (name : String) : Prop extends IsName name, FileTree.Ordinary name where
  nonnull : '\x00' ∉ name.toList

namespace FileTree

/-- Holds for a tree in which all names are ones that the system admits. -/
structure Named (t : FileTree) : Prop extends t.IsTree where
  names : ∀ l, t.node? l ≠ none → ∀ name ∈ l, IsEntryName name

variable {t : FileTree} {f : Bool} {k : Nat} {p : Path} {l : Location} {name : String}
  {names : List String} {n : Node}

theorem isEntryName_iff : IsEntryName name ↔ name ≠ "" ∧ '/' ∉ name.toList ∧ name ≠ "." ∧ name ≠ ".." ∧
    name.utf8ByteSize ≤ nameLimit ∧ '\x00' ∉ name.toList := by
  constructor
  · intro h
    exact ⟨h.nonempty, h.unslashed, h.ne_dot, h.ne_up, h.size_le, h.nonnull⟩
  · rintro ⟨hempty, hslash, hdot, hup, hsize, hnull⟩
    exact ⟨⟨hempty, hslash⟩, ⟨hdot, hup, hsize⟩, hnull⟩

instance : Decidable (IsEntryName name) := decidable_of_iff _ isEntryName_iff.symm

/-- A finite tree can be checked. -/
theorem named_iff : t.Named ↔ t.IsTree ∧ ∀ l ∈ t.locations, ∀ name ∈ l, IsEntryName name := by
  constructor
  · intro h
    exact ⟨h.toIsTree, fun l hl => h.names l (node?_of_mem_locations hl)⟩
  · rintro ⟨htree, hall⟩
    refine ⟨htree, fun l hn => ?_⟩
    by_cases hnil : l = []
    · simp [hnil]
    · exact hall l ((mem_locations_iff hnil).mpr hn)

instance : Decidable t.Named := decidable_of_iff _ named_iff.symm

/-- What stands above something is a directory. -/
theorem IsTree.above (ht : t.IsTree) {below : List String} (hne : below ≠ [])
    (h : t.node? (l ++ below) ≠ none) : t.node? l = some .directory := by
  induction below using List.reverseRecOn with
  | nil => exact absurd rfl hne
  | append_singleton rest name ih =>
    rw [← List.append_assoc] at h
    have hrest := ht.parent _ _ h
    by_cases hnil : rest = []
    · rw [hnil, List.append_nil] at hrest
      exact hrest
    · exact ih hnil (by rw [hrest]; simp)

/-- The characters of a path. -/
theorem mem_joinSlash {c : Char} {names : List String} (h : c ∈ joinSlash names) :
    c = '/' ∨ ∃ name ∈ names, c ∈ name.toList := by
  induction names with
  | nil => simp [joinSlash, List.intercalate] at h
  | cons a rest ih =>
    cases rest with
    | nil =>
      rw [joinSlash_singleton] at h
      exact Or.inr ⟨a, List.mem_cons_self, h⟩
    | cons b more =>
      rw [joinSlash_cons_cons, List.mem_append, List.mem_cons] at h
      rcases h with h | h | h
      · exact Or.inr ⟨a, List.mem_cons_self, h⟩
      · exact Or.inl h
      · obtain h | ⟨name, hname, h⟩ := ih h
        · exact Or.inl h
        · exact Or.inr ⟨name, List.mem_cons_of_mem a hname, h⟩

theorem nonnull_text (h : ∀ name ∈ p.names, '\x00' ∉ name.toList) : '\x00' ∉ p.text.toList := by
  by_cases hne : p.names = []
  · obtain ⟨root, names⟩ := p
    obtain rfl : names = [] := hne
    cases root <;> decide
  · rw [Path.text_of_ne_nil hne, String.toList_ofList, List.mem_append]
    rintro (hslash | hmem)
    · exact absurd (Root.eq_slash hslash) (by decide)
    · obtain hslash | ⟨name, hname, hmem⟩ := mem_joinSlash hmem
      · exact absurd hslash (by decide)
      · exact h name hname hmem

theorem nonnull_of_text (h : '\x00' ∉ p.text.toList) : ∀ name ∈ p.names, '\x00' ∉ name.toList := by
  intro name hname hnull
  have hne := List.ne_nil_of_mem hname
  rw [Path.text_of_ne_nil hne, String.toList_ofList, List.mem_append, not_or] at h
  have hjoin : ∀ names : List String, name ∈ names → '\x00' ∈ joinSlash names := by
    intro names
    induction names with
    | nil => nofun
    | cons a rest ih =>
      intro hmem
      cases rest with
      | nil =>
        rw [joinSlash_singleton, ← List.mem_singleton.mp hmem]
        exact hnull
      | cons b more =>
        rw [joinSlash_cons_cons, List.mem_append, List.mem_cons]
        rcases List.mem_cons.mp hmem with rfl | hmem
        · exact Or.inl hnull
        · exact Or.inr (Or.inr (ih hmem))
  exact h.2 (hjoin p.names hname)

theorem stat_iff_seek {path : String} : t.stat path = .ok n ↔
    '\x00' ∉ path.toList ∧ ∃ l, t.seek true (.parse path) = .ok (.found l) ∧ t.node? l = some n := by
  rw [stat_eq_ok]
  refine and_congr_right fun _ => exists_congr fun l => ?_
  rw [lookup_eq_ok, FileTree.seek, bind_eq_ok]
  constructor
  · rintro ⟨hcheck, hwalk, hn⟩
    exact ⟨⟨(), hcheck, hwalk⟩, hn⟩
  · rintro ⟨⟨_, hcheck, hwalk⟩, hn⟩
    exact ⟨hcheck, hwalk, hn⟩

theorem Named.entryName (ht : t.Named) (hn : t.node? (l ++ [name]) ≠ none) : IsEntryName name :=
  ht.names _ hn name (by simp)

/-- From a place the names of what is below lead to it, if it is not a link. -/
theorem Named.walk_below (ht : t.Named) (hn : t.node? (l ++ names) = some n)
    (hlink : ∀ target, n ≠ .link target) : t.walk f k l names = .ok (.found (l ++ names)) := by
  induction names generalizing l with
  | nil => rw [walk_nil, List.append_nil]
  | cons name rest ih =>
    by_cases hlast : rest = []
    · subst hlast
      rw [walk_entry (ht.entryName (by rw [hn]; simp)).toOrdinary
        fun _ target => by rw [hn]; exact fun h => hlink target (Option.some.inj h), hn]
    · have hbelow : t.node? (l ++ [name] ++ rest) = some n := by
        rwa [List.append_assoc]
      have hdir := ht.above hlast (by rw [hbelow]; simp)
      rw [walk_cons, move_of_ordinary (ht.entryName (by rw [hdir]; simp)).toOrdinary, enter, hdir]
      show t.walk f k (l ++ [name]) rest = _
      rw [ih hbelow, List.append_assoc]
      rfl

section place

variable (ht : t.Named) (hn : t.node? l = some n)
include ht hn

theorem Named.nonnull_place : '\x00' ∉ (Path.ofLocation l).text.toList :=
  nonnull_text fun name hname => (ht.names l (by rw [hn]; simp) name hname).nonnull

variable (hlink : ∀ target, n ≠ .link target)
include hlink

/-- What the path of a place leads to, unless it is too long. -/
theorem Named.seek_place : t.seek f (.parse (Path.ofLocation l).text) =
    if pathLimit < (Path.ofLocation l).text.utf8ByteSize then .error .nameTooLong
    else .ok (.found l) := by
  have hproper : (Path.ofLocation l).Proper :=
    fun name hname => (ht.names l (by rw [hn]; simp) name hname).toIsName
  have hwalk : t.walk f linkLimit [] l = .ok (.found l) := ht.walk_below (l := []) hn hlink
  rw [seek_text hproper, ← hwalk]
  rfl

theorem Named.stat_place : t.stat (Path.ofLocation l).text =
    if pathLimit < (Path.ofLocation l).text.utf8ByteSize
      then .error (.refused .nameTooLong (Path.ofLocation l).text none)
    else .ok n := by
  rw [stat, route_of_eq_ok.mpr ⟨ht.nonnull_place hn, rfl⟩]
  simp only [bind, Except.bind, lookup_eq, ht.seek_place hn hlink]
  by_cases hlong : pathLimit < (Path.ofLocation l).text.utf8ByteSize
  · simp only [if_pos hlong, refusing, mapError_error]
  · simp only [if_neg hlong, refusing, mapError_ok, hn, pure, Except.pure]

end place

end FileTree
end LintDebt
