import LintDebt.Proofs.FileTree.Settling
import LintDebt.Proofs.Glob.Below
import LintDebt.Proofs.Glob.Expanding
import LintDebt.Proofs.Glob.Resolving
import LintDebt.Proofs.IgnoreList

/-! # Lines that name a directory

A line that names a directory is a pattern for the visible stylesheets in it, at any depth. In a
tree without links it finds them all, save those in a directory whose path, as the search writes it,
is too long for the system. -/

namespace LintDebt

open FileTree

namespace Glob

variable {t : FileTree} {base line name text : String} {l : Location}

/-- What is found is resolved as the path under which it was asked for. -/
theorem parse_seen (base text : String) :
    Path.parse (seen (.parse base) text) = (Path.parse base).join (.parse text) := by
  rw [seen]
  split
  · next hempty =>
    have hself : (Path.parse base).join (.parse text) = Path.parse base := by
      rw [hempty]
      exact congrArg (Path.mk _) (List.append_nil _)
    rw [hself, Path.parse_text_parse]
  · exact Path.parse_joinText_text base text

/-- The slashes at its end make no other path of a text. -/
theorem parse_bare (line : String) : Path.parse (String.ofList (bare line.toList)) = .parse line := by
  rw [bare]
  split
  · rw [String.ofList_toList]
  next hall =>
  -- A text with a name in it is cut behind its last name, where only slashes follow.
  have hparts : line.toList.rdropWhile (· = '/') ++ line.toList.rtakeWhile (· = '/') = line.toList :=
    List.rdropWhile_append_rtakeWhile
  have hrest : ∀ c ∈ line.toList.rtakeWhile (· = '/'), c = '/' :=
    fun c hc => by simpa using List.mem_rtakeWhile_imp hc
  have hne : line.toList.rdropWhile (· = '/') ≠ [] := by
    rw [ne_eq, List.rdropWhile_eq_nil_iff]
    simpa using hall
  have hlast : (line.toList.rdropWhile (· = '/')).getLast? ≠ some '/' := by
    rw [List.getLast?_eq_some_getLast hne, ne_eq, Option.some.injEq]
    simpa using List.rdropWhile_last_not (· = '/') line.toList hne
  have hnames : namesOf (line.toList.rdropWhile (· = '/')) = namesOf line.toList := by
    conv_rhs => rw [← hparts]
    rw [namesOf_append_slashes hrest]
  have hroot : Path.rootOf (line.toList.rdropWhile (· = '/')) = Path.rootOf line.toList := by
    conv_rhs => rw [← hparts]
    rw [Path.rootOf_append hne fun hslash => absurd hslash hlast]
  show Path.parse (String.ofList (line.toList.rdropWhile (· = '/'))) = _
  rw [Path.parse_eq, Path.parse_eq, String.toList_ofList, hroot, hnames]

variable {below : List String}

/-- What is found below a directory resolves to its place. -/
theorem resolve_found (ht : t.Linkless) {lead : String} (hlead : lead ≠ "")
    (h : t.Leads (seen (.parse base) lead) l)
    (hn : t.node? (l ++ below ++ [name]) ≠ none) :
    t.resolve ((Path.parse base).join (.parse (joinNames lead (below ++ [name])))) =
      .ok (.ofLocation (l ++ below ++ [name])) := by
  have hwhole : l ++ below ++ [name] = l ++ (below ++ [name]) := List.append_assoc _ _ _
  have hne : below ++ [name] ≠ [] := by simp
  rw [hwhole] at hn ⊢
  have hnames := Glob.entryNames ht hn
  have hwalk := h.walk_below (f := true) ht hne hn
  have hnull := h.nonnull_joinNames ht hn
  rw [← seen_joinNames hlead hnames] at hwalk hnull
  rw [← parse_seen]
  generalize seen (.parse base) (joinNames lead (below ++ [name])) = path at hwalk hnull
  have hplace : t.place (.parse path) = l ++ (below ++ [name]) := by
    have hgone := ht.eq_of_walk (fun m hm => (isName_of_namesOf hm).nonempty) hwalk
    rw [start_parse, Path.parse_eq] at hgone
    rw [Path.parse_eq, place_normal]
    exact hgone
  have hnonnull : ∀ m ∈ (Path.parse path).names, '\x00' ∉ m.toList := by
    intro m hm hmem
    rw [Path.parse_eq] at hm
    exact hnull (mem_of_namesOf (List.mem_filter.mp hm).1 hmem)
  rw [ht.resolve_eq hnonnull (by rw [hplace]; exact hn), hplace]

/-- Holds for a visible name of a stylesheet, seen from a directory that a search lists. -/
structure NamesSheet (t : FileTree) (dir : String) (l : Location) (below : List String) (name : String) :
    Prop where
  searched : Searched t dir l below
  visible : isHidden name = false
  suffix : ".css".toList <:+ name.toList

theorem namesSheet_iff {dir : String} : NamesSheet t dir l below name ↔
    Searched t dir l below ∧ Fits false (.star :: ".css".toList.map .char) name := by
  rw [Fits, covers_star_chars]
  constructor
  · intro h
    exact ⟨h.searched, Or.inr h.visible, h.suffix⟩
  · rintro ⟨hsearched, hvisible, hsuffix⟩
    exact ⟨hsearched, hvisible.resolve_left Bool.false_ne_true, hsuffix⟩

section line

variable {files : List Path} {p : Path}

theorem ne_empty (hremark : IgnoreList.isRemark line = false) : line ≠ "" := by
  rintro rfl
  exact absurd hremark (by decide)

theorem bare_ne_empty (hne : line ≠ "") : String.ofList (bare line.toList) ≠ "" := by
  simpa using bare_ne_nil (show line.toList ≠ [] by simpa using hne)

/-- The path that a search writes leads to the directory that the line names. -/
theorem leads_written (ht : t.Linkless) (hne : line ≠ "")
    (htarget : t.target? ((Path.parse base).join (.parse line)).text = some l)
    (hdir : t.node? l = some .directory) : t.Leads (written (.parse base) line) l := by
  have hparse : Path.parse (written (.parse base) line) = (Path.parse base).join (.parse line) := by
    rw [written, parse_seen, parse_bare]
  have hwritten : written (.parse base) line ≠ "" := by
    rw [written, seen, if_neg (bare_ne_empty hne)]
    exact joinText_ne_empty (Path.text_ne_empty _ (Path.proper_parse base))
  apply ht.leads_of_parse hwritten _ hdir
  rw [hparse]
  exact htarget

/-- A list can be read if its other lines can be looked up, and has no entry for a line without
files. -/
theorem exists_read_of_files {list : Path} {lines : List String}
    (hremark : IgnoreList.isRemark line = false)
    (hfiles : resolvePattern t (.parse base) (PatternRule.standard.expand line) = .ok files)
    (hlines : TextFile.lines t list = .ok lines) (hline : line ∈ lines)
    (hothers : ∀ other ∈ lines, other ≠ line → IgnoreList.isRemark other = false →
      ∃ files, resolvePattern t (.parse base) (PatternRule.standard.expand other) = .ok files) :
    ∃ m, (IgnoreList.read t list (.parse base) .standard).result = .ok m ∧
      ((∀ e ∈ m, e.pattern ≠ line) ↔ files = []) := by
  have hall : ∀ other ∈ lines, IgnoreList.isRemark other = false →
      ∃ files, resolvePattern t (.parse base) (PatternRule.standard.expand other) = .ok files := by
    intro other hother hplain
    by_cases hsame : other = line
    · rw [hsame]
      exact ⟨files, hfiles⟩
    · exact hothers other hother hsame hplain
  obtain ⟨m, hm, hmem⟩ := IgnoreList.exists_read hlines hall
  refine ⟨m, hm, ?_⟩
  constructor
  · intro hno
    by_contra hne
    have hfinds : IgnoreList.Finds t (.parse base) .standard ⟨line, files⟩ := ⟨hremark, hfiles, hne⟩
    exact hno _ ((hmem _).mpr ⟨hline, hfinds⟩) rfl
  · rintro rfl e he rfl
    obtain ⟨-, hfinds⟩ := (hmem e).mp he
    have hsame := hfinds.files.symm.trans hfiles
    exact hfinds.nonempty (Except.ok.inj hsame)

variable (ht : t.Linkless)
  (htarget : t.target? ((Path.parse base).join (.parse line)).text = some l)
  (hdir : t.node? l = some .directory) (hremark : IgnoreList.isRemark line = false)
  (hmagic : isMagic line = false) (hplain : ¬ ".css".toList <:+ line.toList)
include ht htarget hdir hremark hmagic hplain

/-- The files of a directory's line are the visible stylesheets in the directories searched. -/
theorem mem_files_of_directory
    (hfiles : resolvePattern t (.parse base) (PatternRule.standard.expand line) = .ok files) :
    p ∈ files ↔ ∃ below name octets,
      NamesSheet t (written (.parse base) line) l below name ∧
      t.node? (l ++ below ++ [name]) = some (.file octets) ∧
      p = .ofLocation (l ++ below ++ [name]) := by
  have hne := ne_empty hremark
  have hlead := bare_ne_empty hne
  have hleads := leads_written ht hne htarget hdir
  obtain ⟨found, hfound, hlooked, hmem⟩ := mem_of_resolvePattern hfiles
  rw [find_expanded _ hplain hne hmagic, map_eq_ok] at hfound
  obtain ⟨texts, htexts, rfl⟩ := hfound
  have hfinds : ∀ text, text ∈ texts ↔ _ := fun text => mem_selectAll_deep hlead ht hleads htexts
  rw [hmem]
  constructor
  · rintro ⟨text, htext, hresolve, hfile⟩
    obtain ⟨below, name, hsearched, hn, hfits, rfl⟩ := (hfinds text).mp (List.mem_filter.mp htext).1
    rw [resolve_found ht hlead hleads hn] at hresolve
    cases hresolve
    obtain ⟨n, hn⟩ := Option.ne_none_iff_exists'.mp hn
    obtain ⟨octets, rfl⟩ := ((ht.isFile_place hn).mp hfile).2.mp rfl
    exact ⟨below, name, octets, namesSheet_iff.mpr ⟨hsearched, hfits⟩, hn, rfl⟩
  · rintro ⟨below, name, octets, hsheet, hfile, rfl⟩
    obtain ⟨hsearched, hfits⟩ := namesSheet_iff.mp hsheet
    have hn : t.node? (l ++ below ++ [name]) ≠ none := by
      rw [hfile]
      simp
    have htext : joinNames (String.ofList (bare line.toList)) (below ++ [name]) ∈ texts.filter (· ≠ "") :=
      List.mem_filter.mpr ⟨(hfinds _).mpr ⟨below, name, hsearched, hn, hfits, rfl⟩,
        decide_eq_true (joinText_ne_empty hlead)⟩
    have hresolve := resolve_found ht hlead hleads hn
    -- The search did not stop at this file, so its path cannot be too long to be looked at.
    obtain ⟨p, hp, known, hknown⟩ := hlooked _ htext
    obtain rfl := Except.ok.inj (hp.symm.trans hresolve)
    have hsize := ((ht.isFile_place hfile).mp hknown).1
    exact ⟨_, htext, hresolve, (ht.isFile_place hfile).mpr ⟨hsize, by simp⟩⟩

/-- A line that names a directory has files, be they none, unless directories lie too deep in each
other or a path to a stylesheet is too long to be looked at. -/
theorem exists_files_of_directory
    (hshallow : ∀ below, Entered t (written (.parse base) line) l below → below.length < nestingLimit)
    (hshort : ∀ below name, NamesSheet t (written (.parse base) line) l below name →
      t.node? (l ++ below ++ [name]) ≠ none →
      (Path.ofLocation (l ++ below ++ [name])).text.utf8ByteSize ≤ pathLimit) :
    ∃ files, resolvePattern t (.parse base) (PatternRule.standard.expand line) = .ok files := by
  have hne := ne_empty hremark
  have hlead := bare_ne_empty hne
  have hleads := leads_written ht hne htarget hdir
  obtain ⟨texts, htexts⟩ :=
    exists_selectAll_deep hlead ht hleads false (.star :: ".css".toList.map .char) hshallow
  have hfound := (find_expanded (.parse base) hplain hne hmagic).trans (map_eq_ok.mpr ⟨texts, htexts, rfl⟩)
  apply exists_resolvePattern hfound
  intro text htext
  obtain ⟨below, name, hsearched, hn, hfits, rfl⟩ :=
    (mem_selectAll_deep hlead ht hleads htexts).mp (List.mem_filter.mp htext).1
  have hsize := hshort below name (namesSheet_iff.mpr ⟨hsearched, hfits⟩) hn
  refine ⟨_, resolve_found ht hlead hleads hn, ?_⟩
  obtain ⟨n, hn⟩ := Option.ne_none_iff_exists'.mp hn
  exact ht.exists_isFile hn hsize

/-- In a tree without links a line that names a directory means every visible stylesheet in it and
below it, in increasing order, if the path of the directory that holds the stylesheet is short
enough; and a list keeps the line if there is one. -/
theorem files_of_directory_line :
    ((∀ below, Entered t (written (.parse base) line) l below → below.length < nestingLimit) →
      (∀ below name, NamesSheet t (written (.parse base) line) l below name →
        t.node? (l ++ below ++ [name]) ≠ none →
        (Path.ofLocation (l ++ below ++ [name])).text.utf8ByteSize ≤ pathLimit) →
      ∃ files, resolvePattern t (.parse base) (PatternRule.standard.expand line) = .ok files) ∧
    ∀ files, resolvePattern t (.parse base) (PatternRule.standard.expand line) = .ok files →
      (files.Pairwise fun p q => compare p.names q.names = .lt) ∧
      (∀ p, p ∈ files ↔ ∃ below name octets,
        NamesSheet t (written (.parse base) line) l below name ∧
        t.node? (l ++ below ++ [name]) = some (.file octets) ∧
        p = .ofLocation (l ++ below ++ [name])) ∧
      ∀ list lines, TextFile.lines t list = .ok lines → line ∈ lines →
        (∀ other ∈ lines, other ≠ line → IgnoreList.isRemark other = false →
          ∃ files, resolvePattern t (.parse base) (PatternRule.standard.expand other) = .ok files) →
        ∃ m, (IgnoreList.read t list (.parse base) .standard).result = .ok m ∧
          ((∀ e ∈ m, e.pattern ≠ line) ↔ files = []) := by
  refine ⟨exists_files_of_directory ht htarget hdir hremark hmagic hplain, fun files hfiles => ?_⟩
  have hmem := fun p => mem_files_of_directory (p := p) ht htarget hdir hremark hmagic hplain hfiles
  refine ⟨ordered_of_resolvePattern hfiles fun p hp => ?_, hmem,
    fun list lines hlines hline hothers => exists_read_of_files hremark hfiles hlines hline hothers⟩
  obtain ⟨_, _, _, -, -, rfl⟩ := (hmem p).mp hp
  rfl

end line

end Glob

namespace Sample

/-- A directory with a stylesheet in a directory below it, and a list that names it. -/
def nested : FileTree where
  nodes := Std.ExtTreeMap.ofList [
    ([".stylelintignore"], Node.file (Utf8.encode "d\n".toList)),
    (["d"], Node.directory), (["d", "deeper"], Node.directory),
    (["d", "deeper", "x.css"], Node.file [])]
  here := []

theorem linkless_nested : nested.Linkless := by decide +kernel

theorem mem_of_nested (hn : nested.node? l ≠ none) : l ∈ [[], [".stylelintignore"], ["d"],
    ["d", "deeper"], ["d", "deeper", "x.css"]] := by
  have hlocations : nested.locations =
    [[".stylelintignore"], ["d"], ["d", "deeper"], ["d", "deeper", "x.css"]] := by decide +kernel
  by_cases hnil : l = []
  · simp [hnil]
  · have hmem := (mem_locations_iff hnil).mpr hn
    rw [hlocations] at hmem
    exact List.mem_cons_of_mem [] hmem

end Sample

namespace Glob

theorem files_of_nested :
    Sample.nested.Linkless ∧
    Sample.nested.target? ((Path.parse ".").join (.parse "d")).text = some ["d"] ∧
    Sample.nested.node? ["d"] = some .directory ∧ IgnoreList.isRemark "d" = false ∧
    isMagic "d" = false ∧ ¬ ".css".toList <:+ "d".toList ∧
    ∃ m, (IgnoreList.read Sample.nested ⟨.relative, [".stylelintignore"]⟩ (.parse ".") .standard).result =
      .ok m ∧ ∃ e ∈ m, e.pattern = "d" := by
  have ht := Sample.linkless_nested
  have htarget : Sample.nested.target? ((Path.parse ".").join (.parse "d")).text = some ["d"] := by
    decide +kernel
  have hdir : Sample.nested.node? ["d"] = some .directory := by decide +kernel
  have hfiles : resolvePattern Sample.nested (.parse ".") (PatternRule.standard.expand "d") =
      .ok [.ofLocation ["d", "deeper", "x.css"]] := by decide +kernel
  have hlines : TextFile.lines Sample.nested ⟨.relative, [".stylelintignore"]⟩ = .ok ["d"] := by
    decide +kernel
  obtain ⟨-, -, hlist⟩ := (files_of_directory_line ht htarget hdir (by decide) (by decide) (by decide)).2
    _ hfiles
  obtain ⟨m, hm, hdropped⟩ := hlist ⟨.relative, [".stylelintignore"]⟩ ["d"] hlines (by simp)
    (by simp)
  refine ⟨ht, htarget, hdir, by decide, by decide, by decide, m, hm, ?_⟩
  by_contra hno
  have hnone : ∀ e ∈ m, e.pattern ≠ "d" := fun e he hpattern => hno ⟨e, he, hpattern⟩
  exact absurd (hdropped.mp hnone) (by simp)

end Glob

namespace Sample

/-- The way into a directory and out of it, so many times. -/
def detour (n : Nat) : List String := (List.replicate n ["d", ".."]).flatten

theorem detour_succ (n : Nat) : detour (n + 1) = "d" :: ".." :: detour n := by
  simp [detour, List.replicate_succ]

theorem mem_detour {n : Nat} {name : String} (h : name ∈ detour n) : name = "d" ∨ name = ".." := by
  obtain ⟨round, hround, hname⟩ := List.mem_flatten.mp h
  obtain ⟨-, rfl⟩ := List.mem_replicate.mp hround
  simpa using hname

theorem isName_of_detour {n : Nat} : ∀ name ∈ detour n, IsName name ∧ name ≠ "." := by
  intro name hname
  rcases mem_detour hname with rfl | rfl
  · exact ⟨⟨by decide, by decide⟩, by decide⟩
  · exact ⟨⟨by decide, by decide⟩, by decide⟩

theorem nonnull_of_detour {n : Nat} : ∀ name ∈ detour n, '\x00' ∉ name.toList := by
  intro name hname
  rcases mem_detour hname with rfl | rfl <;> decide

/-- A detour leads back. -/
theorem walk_detour {f : Bool} {k : Nat} (n : Nat) (names : List String) :
    nested.walk f k [] (detour n ++ names) = nested.walk f k [] names := by
  induction n with
  | zero => rfl
  | succ n ih =>
    have hname : Ordinary "d" := ⟨by decide, by decide, by decide⟩
    have hdir : nested.node? ([] ++ ["d"]) = some .directory := by decide +kernel
    rw [detour_succ, List.cons_append, walk_cons, move_of_ordinary hname, enter, hdir]
    show nested.walk f k ["d"] (".." :: (detour n ++ names)) = _
    rw [walk_cons, move, if_neg (by decide), if_pos rfl]
    exact ih

/-- Every round of a detour makes a path longer. -/
theorem size_detour (n : Nat) {names : List String} (hne : names ≠ []) :
    (Path.mk .relative (detour n ++ names)).text.utf8ByteSize =
      5 * n + (Path.mk .relative names).text.utf8ByteSize := by
  induction n with
  | zero => simp [detour]
  | succ n ih =>
    have hrest : detour n ++ names ≠ [] := List.append_ne_nil_of_right_ne_nil (detour n) hne
    have htext : (Path.mk .relative (detour (n + 1) ++ names)).text =
        "d/.." ++ "/" ++ (Path.mk .relative (detour n ++ names)).text := by
      have hlast : (Path.mk .relative (detour n ++ names)).text =
          String.ofList (joinSlash (detour n ++ names)) := Path.text_of_ne_nil hrest
      rw [hlast, detour_succ]
      exact @Path.text_append (Path.mk .relative ["d", ".."]) _ (by simp) hrest
    have hround : ("d/.." ++ "/").utf8ByteSize = 5 := by decide
    rw [htext, String.utf8ByteSize_append, hround, ih]
    omega

/-- A base directory with a path of 4089 octets. -/
def farBase : Path := ⟨.relative, detour 818⟩

end Sample

namespace Glob

theorem parse_farBase : Path.parse Sample.farBase.text = Sample.farBase :=
  Path.parse_text (fun name hname => (Sample.isName_of_detour name hname).1)
    fun name hname => (Sample.isName_of_detour name hname).2

theorem written_farBase : written Sample.farBase "d" = joinNames Sample.farBase.text ["d"] := by
  have hbare : String.ofList (bare "d".toList) = "d" := by decide
  rw [written, hbare, seen, if_neg (by decide), joinNames_singleton]

theorem target_farBase : Sample.nested.target? (Sample.farBase.join (.parse "d")).text = some ["d"] := by
  have hd : Path.parse "d" = ⟨.relative, ["d"]⟩ := by decide
  have hwalk : Sample.nested.walk true linkLimit [] ["d"] = .ok (.found ["d"]) := by decide +kernel
  have hnames : ∀ name ∈ Sample.detour 818 ++ ["d"], IsName name ∧ '\x00' ∉ name.toList := by
    intro name hname
    rcases List.mem_append.mp hname with hname | hname
    · exact ⟨(Sample.isName_of_detour name hname).1, Sample.nonnull_of_detour name hname⟩
    · rw [List.mem_singleton.mp hname]
      exact ⟨⟨by decide, by decide⟩, by decide⟩
  have hsize : ¬ pathLimit < (Path.mk .relative (Sample.detour 818 ++ ["d"])).text.utf8ByteSize := by
    rw [Sample.size_detour 818 (List.cons_ne_nil _ _)]
    decide
  rw [hd]
  show Sample.nested.target? (Path.mk .relative (Sample.detour 818 ++ ["d"])).text = _
  apply target?_of_seek (nonnull_text fun name hname => (hnames name hname).2) (x := .found ["d"])
  rw [seek_text fun name hname => (hnames name hname).1, if_neg hsize]
  exact (Sample.walk_detour 818 ["d"]).trans hwalk

theorem directory_of_nested {below : List String}
    (h : Sample.nested.node? (["d"] ++ below) = some .directory) : below = [] ∨ below = ["deeper"] := by
  have hmem := Sample.mem_of_nested (by rw [h]; simp)
  have hfile : Sample.nested.node? ["d", "deeper", "x.css"] ≠ some .directory := by decide +kernel
  simp only [List.singleton_append, List.mem_cons, List.cons.injEq, reduceCtorEq, false_or,
    List.not_mem_nil, or_false] at hmem
  rcases hmem with ⟨hd, -⟩ | ⟨-, hbelow⟩ | ⟨-, hbelow⟩ | ⟨-, hbelow⟩
  · exact absurd hd (by decide)
  · exact Or.inl hbelow
  · exact Or.inr hbelow
  · rw [hbelow] at h
    exact absurd h hfile

/-- The directory below is not searched, because its path is too long. -/
theorem searched_farBase {below : List String}
    (h : Searched Sample.nested (written Sample.farBase "d") ["d"] below) : below = [] := by
  rcases directory_of_nested h.node with hnil | rfl
  · exact hnil
  · have hd : ∀ name ∈ ["d"], IsName name := by simpa using ⟨by decide, by decide⟩
    have hnames : ∀ name ∈ ["d", "deeper"], IsName name := by
      simpa using ⟨⟨by decide, by decide⟩, ⟨by decide, by decide⟩⟩
    have htext : joinNames (joinNames Sample.farBase.text ["d"]) ["deeper"] =
        (Path.mk .relative (Sample.detour 818 ++ ["d", "deeper"])).text := by
      rw [joinNames_joinNames hd (by simpa using ⟨by decide, by decide⟩) (List.cons_ne_nil _ _)]
      exact joinNames_text (fun name hname => (Sample.isName_of_detour name hname).1)
        (List.cons_ne_nil _ _) hnames (List.cons_ne_nil _ _)
    have hsize := h.size_le
    rw [written_farBase, htext, Sample.size_detour 818 (by simp)] at hsize
    exact absurd hsize (by decide)

/-- A stylesheet below a directory is not found if the path of its own directory, as the search
writes it, is too long. -/
theorem overlong_directory_missed :
    Sample.nested.Linkless ∧
    Sample.nested.target? ((Path.parse Sample.farBase.text).join (.parse "d")).text = some ["d"] ∧
    Sample.nested.node? ["d"] = some .directory ∧ IgnoreList.isRemark "d" = false ∧
    isMagic "d" = false ∧ ¬ ".css".toList <:+ "d".toList ∧
    Sample.nested.node? ["d", "deeper", "x.css"] = some (.file []) ∧
    resolvePattern Sample.nested (.parse Sample.farBase.text) (PatternRule.standard.expand "d") = .ok [] := by
  have ht := Sample.linkless_nested
  have hdir : Sample.nested.node? ["d"] = some .directory := by decide +kernel
  have htarget : Sample.nested.target?
      ((Path.parse Sample.farBase.text).join (.parse "d")).text = some ["d"] := by
    rw [parse_farBase]
    exact target_farBase
  have hsearched : ∀ below, Searched Sample.nested (written (.parse Sample.farBase.text) "d") ["d"] below →
      below = [] := by
    rw [parse_farBase]
    exact fun _ => searched_farBase
  have hnone : ∀ below name,
      NamesSheet Sample.nested (written (.parse Sample.farBase.text) "d") ["d"] below name →
      Sample.nested.node? (["d"] ++ below ++ [name]) = none := by
    intro below name hsheet
    by_contra hn
    rw [hsearched below hsheet.searched] at hn
    have hname : name = "deeper" := by simpa using Sample.mem_of_nested hn
    have hsuffix := hsheet.suffix
    rw [hname] at hsuffix
    exact absurd hsuffix (by decide)
  obtain ⟨files, hfiles⟩ := exists_files_of_directory ht htarget hdir (by decide) (by decide) (by decide)
    (fun below h => by rcases directory_of_nested h.node with rfl | rfl <;> decide)
    (fun below name hsheet hn => absurd (hnone below name hsheet) hn)
  have hempty : files = [] := by
    apply List.eq_nil_iff_forall_not_mem.mpr
    intro p hp
    obtain ⟨below, name, octets, hsheet, hn, -⟩ :=
      (mem_files_of_directory ht htarget hdir (by decide) (by decide) (by decide) hfiles).mp hp
    rw [hnone below name hsheet] at hn
    cases hn
  refine ⟨ht, htarget, hdir, by decide, by decide, by decide, by decide +kernel, ?_⟩
  rw [hfiles, hempty]

end Glob
end LintDebt
