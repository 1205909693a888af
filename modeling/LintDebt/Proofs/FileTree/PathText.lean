import LintDebt.Proofs.FileTree.Refusals
import LintDebt.Proofs.Text.Lines

/-! # Paths as they are written

A path whose names are proper ones is read back by the system as what it is: the same names, seen
from the root or from where relative paths start. So looking for its text is walking its names,
unless the text is too long. -/

namespace LintDebt

/-- Holds for a text that can be a name in a path. -/
structure IsName (name : String) : Prop where
  nonempty : name ≠ ""
  unslashed : '/' ∉ name.toList

namespace Path

/-- Holds for a path that is made of names. -/
def Proper (p : Path) : Prop := ∀ name ∈ p.names, IsName name

end Path

variable {names : List String} {name : String}

theorem unslashed_of_slashParts {s part : String} (h : part ∈ slashParts s) : '/' ∉ part.toList := by
  obtain ⟨chars, hchars, rfl⟩ := List.mem_map.mp h
  rw [String.toList_ofList]
  exact (Text.mem_splitOn hchars).1

theorem mem_of_slashParts {s part : String} {c : Char} (h : part ∈ slashParts s) (hc : c ∈ part.toList) :
    c ∈ s.toList := by
  obtain ⟨chars, hchars, rfl⟩ := List.mem_map.mp h
  rw [String.toList_ofList] at hc
  exact (Text.mem_splitOn hchars).2 c hc

/-- What stands between two slashes is a name, if anything does. -/
theorem isName_of_slashParts {s name : String} (h : name ∈ slashParts s) (hne : name ≠ "") :
    IsName name :=
  ⟨hne, unslashed_of_slashParts h⟩

theorem Path.proper_parse (s : String) : (Path.parse s).Proper := by
  intro name hname
  obtain ⟨hmem, hkept⟩ := List.mem_filter.mp hname
  exact isName_of_slashParts hmem (of_decide_eq_true hkept).1

theorem joinSlash_cons_cons (a b : String) (rest : List String) :
    joinSlash (a :: b :: rest) = a.toList ++ '/' :: joinSlash (b :: rest) := by
  simp [joinSlash, List.intercalate]

theorem joinSlash_singleton (a : String) : joinSlash [a] = a.toList := by
  simp [joinSlash, List.intercalate]

theorem joinSlash_append {a b : List String} (ha : a ≠ []) (hb : b ≠ []) :
    joinSlash (a ++ b) = joinSlash a ++ '/' :: joinSlash b := by
  induction a with
  | nil => exact absurd rfl ha
  | cons first rest ih =>
    cases rest with
    | nil =>
      obtain ⟨second, more, rfl⟩ := List.exists_cons_of_ne_nil hb
      rw [List.singleton_append, joinSlash_cons_cons, joinSlash_singleton]
    | cons second more =>
      rw [List.cons_append, List.cons_append, joinSlash_cons_cons, ← List.cons_append, ih nofun,
        joinSlash_cons_cons, List.append_assoc, List.cons_append]

theorem head?_joinSlash (hnames : ∀ name ∈ names, IsName name) :
    (joinSlash names).head? ≠ some '/' := by
  cases names with
  | nil => simp [joinSlash, List.intercalate]
  | cons a rest =>
    have ha := hnames a List.mem_cons_self
    obtain ⟨c, cs, hc⟩ := List.exists_cons_of_ne_nil (fun h => ha.nonempty (String.toList_eq_nil_iff.mp h))
    have hne : c ≠ '/' := by
      rintro rfl
      exact ha.unslashed (by rw [hc]; exact List.mem_cons_self)
    cases rest with
    | nil => simp [joinSlash_singleton, hc, hne]
    | cons b more => simp [joinSlash_cons_cons, hc, hne]

theorem joinSlash_ne_nil (hne : names ≠ []) (hnames : ∀ name ∈ names, IsName name) :
    joinSlash names ≠ [] := by
  obtain ⟨a, rest, rfl⟩ := List.exists_cons_of_ne_nil hne
  have ha := (hnames a List.mem_cons_self).nonempty
  cases rest with
  | nil => simpa [joinSlash_singleton] using ha
  | cons b more => simp [joinSlash_cons_cons]

theorem getLast?_joinSlash (hnames : ∀ name ∈ names, IsName name) :
    (joinSlash names).getLast? ≠ some '/' := by
  induction names with
  | nil => simp [joinSlash, List.intercalate]
  | cons a rest ih =>
    cases rest with
    | nil =>
      rw [joinSlash_singleton]
      exact fun h => (hnames a List.mem_cons_self).unslashed (List.mem_of_getLast? h)
    | cons b more =>
      have hrest := fun name h => hnames name (List.mem_cons_of_mem a h)
      rw [joinSlash_cons_cons, ← List.singleton_append, ← List.append_assoc,
        List.getLast?_append_of_ne_nil _ (joinSlash_ne_nil (List.cons_ne_nil b more) hrest)]
      exact ih hrest

/-- The parts between the slashes are the names. -/
theorem splitOn_joinSlash (hne : names ≠ []) (hnames : ∀ name ∈ names, IsName name) :
    (joinSlash names).splitOn '/' = names.map String.toList := by
  rw [joinSlash]
  refine List.splitOn_intercalate '/' ?_ (by simpa using hne)
  intro l hl
  obtain ⟨name, hname, rfl⟩ := List.mem_map.mp hl
  exact (hnames name hname).unslashed

section slashed

variable {lead : List Char} (hlead : ∀ c ∈ lead, c = '/') (hne : names ≠ [])
  (hnames : ∀ name ∈ names, IsName name)
include hlead hne hnames

theorem slashParts_slashed :
    (slashParts (String.ofList (lead ++ joinSlash names))).filter (· ≠ "") = names := by
  rw [slashParts, String.toList_ofList]
  induction lead with
  | nil =>
    have hall : names.filter (· ≠ "") = names :=
      List.filter_eq_self.mpr fun name h => decide_eq_true (hnames name h).nonempty
    simpa [splitOn_joinSlash hne hnames, List.map_map] using hall
  | cons c rest ih =>
    obtain ⟨hc, hrest⟩ := List.forall_mem_cons.mp hlead
    rw [hc, List.cons_append, List.splitOn_cons_eq_if_modifyHead, if_pos (beq_self_eq_true '/'),
      List.map_cons, List.filter_cons_of_neg (by simp)]
    exact ih hrest

/-- Names after slashes are read back as they are. -/
theorem parse_slashed : Route.parse (String.ofList (lead ++ joinSlash names)) =
    ⟨lead ≠ [], names, false, (String.ofList (lead ++ joinSlash names)).utf8ByteSize⟩ := by
  have hhead : (lead ++ joinSlash names).head? = some '/' ↔ lead ≠ [] := by
    cases lead with
    | nil => simpa using head?_joinSlash hnames
    | cons c rest => simp [hlead c List.mem_cons_self]
  have hlast : (lead ++ joinSlash names).getLast? ≠ some '/' := by
    rw [List.getLast?_append_of_ne_nil _ (joinSlash_ne_nil hne hnames)]
    exact getLast?_joinSlash hnames
  rw [Route.parse, slashParts_slashed hlead hne hnames, String.toList_ofList]
  simp only [hhead, hlast, decide_false]

/-- To look for names after slashes is to walk them. -/
theorem FileTree.seek_slashed (t : FileTree) (f : Bool) :
    t.seek f (.parse (String.ofList (lead ++ joinSlash names))) =
      if pathLimit < (String.ofList (lead ++ joinSlash names)).utf8ByteSize then .error .nameTooLong
      else t.walk f linkLimit (if lead = [] then t.here else []) names := by
  rw [parse_slashed hlead hne hnames, seek, checkRoute, if_neg (by simp [Route.isEmpty, hne])]
  split
  · rfl
  · simp [bind, Except.bind, FileTree.start, Route.steps]

end slashed

/-- The slashes that a root is written with. -/
def Root.slashes : Root → List Char
  | .relative => []
  | .absolute => ['/']
  | .doubled => ['/', '/']

theorem Root.eq_slash {root : Root} {c : Char} (h : c ∈ root.slashes) : c = '/' := by
  cases root <;> simp [slashes] at h <;> exact h

theorem Root.slashes_eq_nil {root : Root} : root.slashes = [] ↔ root = .relative := by
  cases root <;> simp [slashes]

namespace Path

variable {p : Path} {more : List String}

theorem text_of_ne_nil (hne : p.names ≠ []) :
    p.text = String.ofList (p.root.slashes ++ joinSlash p.names) := by
  obtain ⟨root, names⟩ := p
  cases root with
  | relative =>
    cases names with
    | nil => exact absurd rfl hne
    | cons a rest => rfl
  | absolute | doubled => rfl

theorem Proper.append (hp : p.Proper) (hmore : ∀ name ∈ more, IsName name) :
    (Path.mk p.root (p.names ++ more)).Proper := by
  intro name hname
  rcases List.mem_append.mp hname with h | h
  · exact hp name h
  · exact hmore name h

theorem Proper.join {q : Path} (hp : p.Proper) (hq : q.Proper) : (p.join q).Proper := by
  rw [Path.join]
  split
  · exact hp.append hq
  · exact hq

/-- A name is written after a slash. -/
theorem text_append (hne : p.names ≠ []) (hmore : more ≠ []) :
    (Path.mk p.root (p.names ++ more)).text = p.text ++ "/" ++ String.ofList (joinSlash more) := by
  rw [text_of_ne_nil hne, text_of_ne_nil (by simp [hne]), ← String.toList_inj]
  simp [joinSlash_append hne hmore]

/-- The slashes that a text begins with tell where a path starts. -/
theorem rootOf_eq (s : List Char) : rootOf s =
    if s[0]? = some '/' then
      if s[1]? = some '/' ∧ s[2]? ≠ some '/' then .doubled else .absolute
    else .relative := by
  rcases s with _ | ⟨a, _ | ⟨b, _ | ⟨c, rest⟩⟩⟩
  · rfl
  · by_cases ha : a = '/' <;> simp [rootOf, ha]
  · by_cases ha : a = '/' <;> by_cases hb : b = '/' <;> simp [rootOf, ha, hb]
  · by_cases ha : a = '/' <;> by_cases hb : b = '/' <;> by_cases hc : c = '/' <;>
      simp [rootOf, ha, hb, hc]

/-- A path without dots is read back as it is. -/
theorem parse_text (hp : p.Proper) (hdot : ∀ name ∈ p.names, name ≠ ".") : Path.parse p.text = p := by
  by_cases hne : p.names = []
  · obtain ⟨root, names⟩ := p
    obtain rfl : names = [] := hne
    cases root <;> decide
  have hroot : rootOf (p.root.slashes ++ joinSlash p.names) = p.root := by
    have hhead := head?_joinSlash hp
    rw [List.head?_eq_getElem?] at hhead
    rw [rootOf_eq]
    cases p.root <;> simp [Root.slashes, hhead]
  have hparts : (slashParts p.text).filter (· ≠ "") = p.names := by
    rw [text_of_ne_nil hne]
    exact slashParts_slashed (fun _ => Root.eq_slash) hne hp
  have hnames : (slashParts p.text).filter (fun name => name ≠ "" ∧ name ≠ ".") = p.names := by
    calc (slashParts p.text).filter (fun name => name ≠ "" ∧ name ≠ ".")
        = ((slashParts p.text).filter (· ≠ "")).filter (· ≠ ".") := by
          rw [List.filter_filter]
          apply List.filter_congr
          intro name _
          simp [Bool.and_comm]
      _ = p.names := by
          rw [hparts]
          exact List.filter_eq_self.mpr fun name hname => decide_eq_true (hdot name hname)
  rw [Path.parse, normal, hnames, text_of_ne_nil hne, String.toList_ofList, hroot]

/-- More names make a longer text. -/
theorem size_le_append (p : Path) (hmore : ∀ name ∈ more, IsName name) :
    p.text.utf8ByteSize ≤ (Path.mk p.root (p.names ++ more)).text.utf8ByteSize := by
  by_cases hnil : more = []
  · exact Nat.le_of_eq (by rw [hnil, List.append_nil])
  by_cases hne : p.names = []
  · obtain ⟨root, names⟩ := p
    obtain rfl : names = [] := hne
    have hpos : 0 < (String.ofList (joinSlash more)).utf8ByteSize := by
      apply Nat.pos_of_ne_zero
      simpa using joinSlash_ne_nil hnil hmore
    have htext : (Path.mk root more).text = String.ofList (root.slashes ++ joinSlash more) :=
      text_of_ne_nil hnil
    rw [List.nil_append, htext, String.ofList_append, String.utf8ByteSize_append]
    have hroot : (Path.mk root []).text.utf8ByteSize ≤ (String.ofList root.slashes).utf8ByteSize + 1 := by
      cases root <;> decide
    omega
  · rw [text_append hne hnil, String.utf8ByteSize_append, String.utf8ByteSize_append]
    omega

end Path

namespace FileTree

variable {t : FileTree} {f : Bool} {p : Path}

/-- Where a path starts. -/
def origin (t : FileTree) (p : Path) : Location := if p.root = .relative then t.here else []

theorem walk_dot {l : Location} {k : Nat} : t.walk f k l ("." :: names) = t.walk f k l names := by
  rw [walk_cons, move, if_pos rfl]

theorem walk_up {l : Location} {k : Nat} :
    t.walk f k l (".." :: names) = t.walk f k l.dropLast names := by
  rw [walk_cons, move, if_neg (by decide), if_pos rfl]

/-- To look for a path as it is written is to walk its names. -/
theorem seek_text (hp : p.Proper) : t.seek f (.parse p.text) =
    if pathLimit < p.text.utf8ByteSize then .error .nameTooLong
    else t.walk f linkLimit (t.origin p) p.names := by
  by_cases hne : p.names = []
  · obtain ⟨root, names⟩ := p
    obtain rfl : names = [] := hne
    cases root with
    | relative => exact walk_dot.trans (by rw [if_neg (by decide)]; rfl)
    | absolute | doubled => exact walk_dot.trans (by rw [if_neg (by decide)]; rfl)
  · rw [Path.text_of_ne_nil hne, seek_slashed (fun _ => Root.eq_slash) hne hp]
    simp only [Root.slashes_eq_nil, origin]

end FileTree
end LintDebt
