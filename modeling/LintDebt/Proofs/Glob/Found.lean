import LintDebt.Proofs.Glob.Below
import LintDebt.Proofs.Glob.Resolving

/-! # What a search may find, and where it may fail

Every text that a search finds is made of slashes, of characters of the pattern, and of names of entries
of the tree, and it is asked for behind the path of the base directory. So U+0000 is in none of them
unless it is in the base or in the pattern. A search that fails, or fails to make files of what it found,
has met one of a few limits: of the depth to which calls may be nested, of the length of a path, or of
the number of links on it; or it was given U+0000. -/

namespace LintDebt.Glob

open FileTree

variable {t : FileTree} {base p : Path} {dir path more pattern : String} {files : List Path}
  {found dirs names : List String} {directoriesOnly : Bool} {e : Fault}

/-- The faults with which a search for files can fail; `null` tells whether it was given U+0000. -/
inductive Overrun (t : FileTree) (null : Prop) : Fault → Prop where
  | nesting : Overrun t null (.tooDeep none)
  | nullCharacter (h : null) : Overrun t null (.os .nullCharacter)
  | length (path : String) (h : t.stat path = .error (.refused .nameTooLong path none)) :
      Overrun t null (.os (.refused .nameTooLong path none))
  | links (path : String) (h : t.stat path = .error (.refused .tooManyLinks path none)) :
      Overrun t null (.linkLoop path)

/-! ### The characters of what is found -/

theorem nonnull_joinText (hpath : '\x00' ∉ path.toList) (hmore : '\x00' ∉ more.toList) :
    '\x00' ∉ (joinText path more).toList := by
  rw [joinText]
  split
  · exact hmore
  split <;> simp [hpath, hmore]

theorem nonnull_joinNames (hpath : '\x00' ∉ path.toList) (hnames : ∀ name ∈ names, '\x00' ∉ name.toList) :
    '\x00' ∉ (joinNames path names).toList := by
  apply nonnull_joinText hpath
  rw [String.toList_ofList]
  intro hmem
  obtain hslash | ⟨name, hname, hnull⟩ := mem_joinSlash hmem
  · exact absurd hslash (by decide)
  · exact hnames name hname hnull

theorem nonnull_seen (hbase : ∀ name ∈ base.names, '\x00' ∉ name.toList) (hpath : '\x00' ∉ path.toList) :
    '\x00' ∉ (seen base path).toList := by
  rw [seen]
  split
  · exact nonnull_text hbase
  · exact nonnull_joinText (nonnull_text hbase) hpath

/-- The text that a search begins with is a part of the pattern. -/
theorem nonnull_leadOf (hpattern : '\x00' ∉ pattern.toList) : '\x00' ∉ (leadOf pattern).toList := by
  have hbare : ∀ s : List Char, '\x00' ∉ s → '\x00' ∉ bare s := by
    intro s hs
    rw [bare]
    split
    · exact hs
    · rw [List.mem_reverse]
      exact fun hmem => hs (List.mem_reverse.mp ((List.dropWhile_suffix _).subset hmem))
  rw [leadOf, String.toList_ofList]
  apply hbare
  rw [List.mem_reverse]
  intro hmem
  have htaken := List.mem_reverse.mp ((List.dropWhile_suffix _).subset hmem)
  exact hpattern ((List.takeWhile_prefix _).subset htaken)

/-- Holds for a part that is no name with U+0000 in it. -/
def Part.Nonnull : Part → Prop
  | .plain name => '\x00' ∉ name.toList
  | _ => True

theorem Part.nonnull_parse {name : String} (h : '\x00' ∉ name.toList) : (Part.parse name).Nonnull := by
  unfold Part.parse
  split
  · trivial
  split
  · trivial
  · exact h

theorem nonnull_partsOf (hpattern : '\x00' ∉ pattern.toList) : ∀ part ∈ partsOf pattern, part.Nonnull := by
  intro part hpart
  rcases List.mem_append.mp hpart with hpart | hpart
  · obtain ⟨name, hname, rfl⟩ := List.mem_map.mp hpart
    have hmem := (List.mem_filter.mp ((List.dropWhile_suffix _).subset hname)).1
    exact Part.nonnull_parse fun hnull => hpattern (mem_of_slashParts hmem hnull)
  · split at hpart
    · rw [List.mem_singleton.mp hpart]
      trivial
    · cases hpart

section entries

variable (ht : t.Named)
include ht

theorem nonnull_namesIn (h : namesIn t directoriesOnly dir = .ok names) :
    ∀ name ∈ names, '\x00' ∉ name.toList := by
  rw [namesIn] at h
  split at h
  · next entries hlist =>
    cases h
    intro name hname
    obtain ⟨⟨_, isDir⟩, hlisted, rfl⟩ := List.mem_map.mp hname
    rw [list] at hlist
    obtain ⟨r, -, hlist⟩ := bind_eq_ok.mp hlist
    obtain ⟨⟨l, n⟩, -, hlist⟩ := bind_eq_ok.mp hlist
    cases n with
    | directory =>
      cases hlist
      obtain ⟨name, hchild, heq⟩ := List.mem_map.mp (List.mem_filter.mp hlisted).1
      cases heq
      exact (ht.entryName (mem_childNames.mp hchild)).nonnull
    | file octets => cases hlist
    | link target => cases hlist
  · cases h
  · cases h
    simp

theorem nonnull_under (room : Nat) {below : List (List String)}
    (h : under t directoriesOnly room dir = .ok below) :
    ∀ names ∈ below, ∀ name ∈ names, '\x00' ∉ name.toList := by
  induction room generalizing dir below with
  | zero => cases h
  | succ room ih =>
    obtain ⟨here, parts, hhere, hparts, rfl⟩ := under_eq_ok.mp h
    intro names hnames
    obtain ⟨part, hpart, hmem⟩ := List.mem_flatten.mp hnames
    obtain ⟨name, hname, hthrough⟩ := (mem_of_mapM hparts part).mp hpart
    have hfirst := nonnull_namesIn ht hhere name (List.mem_filter.mp hname).1
    obtain ⟨deeper, hdeeper, rfl⟩ := map_eq_ok.mp hthrough
    rcases List.mem_cons.mp hmem with rfl | hmem
    · exact List.forall_mem_singleton.mpr hfirst
    · obtain ⟨rest, hrest, rfl⟩ := List.mem_map.mp hmem
      exact List.forall_mem_cons.mpr ⟨hfirst, ih hdeeper rest hrest⟩

theorem nonnull_select {part : Part} (hpart : part.Nonnull) {below : List (List String)}
    (h : select t directoriesOnly dir part = .ok below) :
    ∀ names ∈ below, ∀ name ∈ names, '\x00' ∉ name.toList := by
  cases part with
  | plain name =>
    cases h
    intro names hnames
    split at hnames
    · rw [List.mem_singleton.mp hnames]
      exact List.forall_mem_singleton.mpr hpart
    · cases hnames
  | directory =>
    cases h
    intro names hnames
    split at hnames
    · rw [List.mem_singleton.mp hnames]
      simp
    · cases hnames
  | wild hidden tokens =>
    obtain ⟨here, hhere, h⟩ := bind_eq_ok.mp h
    cases h
    intro names hnames
    obtain ⟨name, hname, rfl⟩ := List.mem_map.mp hnames
    exact List.forall_mem_singleton.mpr (nonnull_namesIn ht hhere name (List.mem_filter.mp hname).1)
  | deep =>
    obtain ⟨deeper, hdeeper, h⟩ := bind_eq_ok.mp h
    cases h
    exact List.forall_mem_cons.mpr ⟨by simp, nonnull_under ht nestingLimit hdeeper⟩

/-- One part of a pattern adds no U+0000 to the texts found so far. -/
theorem nonnull_selected {part : Part} (hpart : part.Nonnull) (hdirs : ∀ dir ∈ dirs, '\x00' ∉ dir.toList)
    {selected : List (List String)} (h : dirs.mapM (fun dir =>
      (select t directoriesOnly (seen base dir) part).map (·.map (joinNames dir))) = .ok selected) :
    ∀ text ∈ selected.flatten.eraseDups, '\x00' ∉ text.toList := by
  intro text htext
  obtain ⟨texts, htexts, htext⟩ := List.mem_flatten.mp (List.mem_eraseDups.mp htext)
  obtain ⟨dir, hdir, hstep⟩ := (mem_of_mapM h texts).mp htexts
  obtain ⟨below, hbelow, rfl⟩ := map_eq_ok.mp hstep
  obtain ⟨names, hnames, rfl⟩ := List.mem_map.mp htext
  exact nonnull_joinNames (hdirs dir hdir) (nonnull_select ht hpart hbelow names hnames)

theorem nonnull_selectAll (parts : List Part) (hparts : ∀ part ∈ parts, part.Nonnull)
    (hdirs : ∀ dir ∈ dirs, '\x00' ∉ dir.toList) (h : selectAll t base parts dirs = .ok found) :
    ∀ text ∈ found, '\x00' ∉ text.toList := by
  induction parts generalizing dirs with
  | nil =>
    cases h
    exact hdirs
  | cons part rest ih =>
    obtain ⟨hpart, hrest⟩ := List.forall_mem_cons.mp hparts
    obtain ⟨selected, hselected, h⟩ := selectAll_cons_eq_ok.mp h
    exact ih hrest (nonnull_selected ht hpart hdirs hselected) h

/-- What is found holds U+0000 only if the pattern does. -/
theorem nonnull_find (hpattern : '\x00' ∉ pattern.toList) (h : find t base pattern = .ok found) :
    ∀ text ∈ found, '\x00' ∉ text.toList := by
  by_cases hmagic : isMagic pattern = true
  · rw [find_of_magic hmagic] at h
    split at h
    · cases h
    obtain ⟨selected, hselected, rfl⟩ := map_eq_ok.mp h
    intro text htext
    exact nonnull_selectAll ht _ (nonnull_partsOf hpattern)
      (List.forall_mem_singleton.mpr (nonnull_leadOf hpattern)) hselected text (List.mem_filter.mp htext).1
  · rcases find_of_plain hmagic with hfind | hfind
    · cases hfind.symm.trans h
      exact List.forall_mem_singleton.mpr hpattern
    · cases hfind.symm.trans h
      simp

end entries

/-! ### Where a search may fail -/

section overrun

variable {null : Prop}

/-- Of a path with U+0000 the system says nothing at all. -/
theorem overrun_of_namesIn (hdir : ¬ null → '\x00' ∉ dir.toList)
    (h : namesIn t directoriesOnly dir = .error e) : Overrun t null e := by
  rw [namesIn] at h
  split at h
  · cases h
  · next hlist =>
    cases h
    by_contra hnone
    exact hdir (fun hnull => hnone (.nullCharacter hnull)) (null_of_list hlist)
  · cases h

/-- The system names the path with too many links, and nothing else. -/
theorem overrun_of_resolve (hnames : ¬ null → ∀ name ∈ p.names, '\x00' ∉ name.toList) {error : ResolveError}
    (h : t.resolve p = .error error) : Overrun t null (.ofResolve error) := by
  rw [resolve] at h
  dsimp only at h
  split at h
  · next hnull =>
    cases h
    obtain ⟨name, hname, hmem⟩ := List.any_eq_true.mp hnull
    exact .nullCharacter (by_contra fun hnone => hnames hnone name hname (by simpa using hmem))
  split at h
  · cases h
    exact .nesting
  split at h
  · next hstat =>
    cases h
    obtain hnull | ⟨code, hcode, -⟩ := refused_of_stat hstat
    · cases hnull
    · cases hcode
      exact .links _ hstat
  · cases h

variable (ht : t.Named)
include ht

theorem overrun_of_under (room : Nat) (hdir : ¬ null → '\x00' ∉ dir.toList)
    (h : under t directoriesOnly room dir = .error e) : Overrun t null e := by
  induction room generalizing dir with
  | zero =>
    cases h
    exact .nesting
  | succ room ih =>
    rw [under_succ] at h
    rcases bind_eq_error.mp h with h | ⟨here, hhere, h⟩
    · exact overrun_of_namesIn hdir h
    obtain ⟨name, hname, h⟩ := exists_of_mapM_error (map_eq_error.mp h)
    have hentry := nonnull_namesIn ht hhere name (List.mem_filter.mp hname).1
    exact ih (fun hnone => nonnull_joinText (hdir hnone) hentry) (map_eq_error.mp h)

theorem overrun_of_select {part : Part} (hdir : ¬ null → '\x00' ∉ dir.toList)
    (h : select t directoriesOnly dir part = .error e) : Overrun t null e := by
  cases part with
  | plain name => cases h
  | directory => cases h
  | wild hidden tokens =>
    rcases bind_eq_error.mp h with h | ⟨here, -, h⟩
    · exact overrun_of_namesIn hdir h
    · cases h
  | deep =>
    rcases bind_eq_error.mp h with h | ⟨deeper, -, h⟩
    · exact overrun_of_under ht nestingLimit hdir h
    · cases h

variable (hbase : ¬ null → ∀ name ∈ base.names, '\x00' ∉ name.toList)
include hbase

theorem overrun_of_selectAll (parts : List Part) (hparts : ¬ null → ∀ part ∈ parts, part.Nonnull)
    (hdirs : ¬ null → ∀ dir ∈ dirs, '\x00' ∉ dir.toList)
    (h : selectAll t base parts dirs = .error e) : Overrun t null e := by
  induction parts generalizing dirs with
  | nil => cases h
  | cons part rest ih =>
    rw [selectAll_cons] at h
    rcases bind_eq_error.mp h with h | ⟨selected, hselected, h⟩
    · obtain ⟨dir, hmem, h⟩ := exists_of_mapM_error h
      exact overrun_of_select ht (fun hnone => nonnull_seen (hbase hnone) (hdirs hnone dir hmem))
        (map_eq_error.mp h)
    · exact ih (fun hnone other hother => hparts hnone other (List.mem_cons_of_mem part hother))
        (fun hnone => nonnull_selected ht (hparts hnone part List.mem_cons_self) (hdirs hnone) hselected) h

variable (hpattern : ¬ null → '\x00' ∉ pattern.toList)
include hpattern

theorem overrun_of_find (h : find t base pattern = .error e) : Overrun t null e := by
  by_cases hmagic : isMagic pattern = true
  · rw [find_of_magic hmagic] at h
    split at h
    · cases h
      exact .nesting
    · exact overrun_of_selectAll ht hbase _ (fun hnone => nonnull_partsOf (hpattern hnone))
        (fun hnone => List.forall_mem_singleton.mpr (nonnull_leadOf (hpattern hnone))) (map_eq_error.mp h)
  · rcases find_of_plain hmagic with hfind | hfind
    · cases hfind.symm.trans h
    · cases hfind.symm.trans h

/-- Nothing but a limit keeps a pattern from having files, be they none. -/
theorem overrun_of_resolvePattern (h : resolvePattern t base pattern = .error e) : Overrun t null e := by
  rw [resolvePattern] at h
  rcases bind_eq_error.mp h with h | ⟨found, hfound, h⟩
  · exact overrun_of_find ht hbase hpattern h
  rcases bind_eq_error.mp h with h | ⟨resolved, -, h⟩
  · obtain ⟨text, htext, h⟩ := exists_of_mapM_error h
    obtain ⟨error, herror, rfl⟩ := mapError_eq_error.mp h
    refine overrun_of_resolve (fun hnone => ?_) herror
    have htextNames : ∀ name ∈ (Path.parse text).names, '\x00' ∉ name.toList := fun name hname hnull =>
      nonnull_find ht (hpattern hnone) hfound text htext
        (mem_of_slashParts (List.mem_filter.mp hname).1 hnull)
    rw [Path.join]
    split
    · intro name hname
      rcases List.mem_append.mp hname with hname | hname
      · exact hbase hnone name hname
      · exact htextNames name hname
    · exact htextNames
  rcases bind_eq_error.mp h with h | ⟨kept, -, h⟩
  · obtain ⟨p, -, h⟩ := exists_of_filterM_error h
    obtain ⟨error, herror, rfl⟩ := mapError_eq_error.mp h
    obtain ⟨rfl, hstat⟩ := holdsAt_stat_eq_error herror
    exact .length p.text hstat
  · cases h

end overrun

end LintDebt.Glob
