import LintDebt.Linter.Basic
import LintDebt.Proofs.FileTree.Cleared
import LintDebt.Proofs.FileTree.Linkless
import LintDebt.Proofs.Glob.Found
import LintDebt.Proofs.Glob.Shapes
import LintDebt.Proofs.Text.Units

/-! # Sources and the files of patterns

A report names its file by a source, which may be any way to that file, while a pattern gives canonical
paths. The two are compared, so a source has to resolve to the very path that the pattern gave: the path
of the file's place, without links. A pattern gives that path unless a resolution was cut short, or the
path that it left is too long to be looked at; and a source resolves to it unless a link is overlooked
because its path is too long. -/

namespace LintDebt

open FileTree Glob

variable {t : FileTree} {base p : Path} {root source pattern : String} {place l : Location}
  {files : List Path} {octets : List UInt8}

/-- Holds for a source that is a way to a place: from the top, or from where the root directory is. -/
inductive Reaches (t : FileTree) (root source : String) (l : Location) : Prop where
  | absolute (hroot : (Route.parse source).absolute = true)
      (hwalk : t.walk true linkLimit [] (Route.parse source).steps = .ok (.found l))
  | relative (place : Location) (hroot : (Route.parse source).absolute = false)
      (hplace : t.walk true linkLimit (t.start (.parse root)) (Route.parse root).steps =
        .ok (.found place))
      (hdirectory : t.node? place = some .directory)
      (hwalk : t.walk true linkLimit place (Route.parse source).steps = .ok (.found l))

/-- Holds for a path whose resolution comes to its end, and that at a path which can be looked at. -/
structure Concludes (t : FileTree) (p : Path) : Prop where
  whole : (t.ascend p).ending = .whole
  size_le : (t.ascend p).path.text.utf8ByteSize ≤ pathLimit

/-- A source that is text is resolved, seen from the base. -/
theorem sourcePath_unitsOf (t : FileTree) (base : Path) (source : String) :
    sourcePath t base (Text.unitsOf source) =
      (t.resolve (base.join (.parse source))).mapError Fault.ofResolve := by
  have hspelled : ∀ (chars : List Char) (position : Nat),
      Text.loneRun? isOctetUnit position (chars.map .char) = none := by
    intro chars
    induction chars with
    | nil => exact fun _ => rfl
    | cons c rest ih => exact fun position => ih (position + 1)
  have htext : Json.unitText (Text.unitsOf source) = source := by
    rw [Json.unitText, Text.unitsOf, Text.ofUnits_units, String.ofList_toList]
  rw [sourcePath, unspelled?, Text.unitsOf, Text.points_units, hspelled]
  dsimp only [Option.map_none]
  rw [← Text.unitsOf, htext]

/-- A text is walked to where its path is. -/
theorem walk_parse {k : Nat} (h : t.walk true k place (Route.parse source).steps = .ok (.found l)) :
    t.walk true k place (Path.parse source).names = .ok (.found l) := by
  rw [← Route.filter_steps]
  exact walk_undotted k place _ [] _ rfl h

/-- What a source reaches is where the path that is resolved for it leads. -/
theorem Reaches.walk (h : Reaches t root source l) (hne : t.node? l ≠ some .directory) :
    t.walk true (linkLimit + linkLimit) (t.origin ((Path.parse root).join (.parse source)))
      ((Path.parse root).join (.parse source)).names = .ok (.found l) := by
  cases h with
  | absolute hroot hwalk =>
    rw [join_parse, if_pos hroot, ← start_parse, start, if_pos hroot]
    exact walk_mono _ _ _ (walk_parse hwalk) _ (Nat.le_add_right linkLimit linkLimit)
  | relative place hroot hplace hdirectory hwalk =>
    have hsource := walk_parse hwalk
    have hnames : (Path.parse source).names ≠ [] := by
      intro hnil
      rw [hnil, walk_nil] at hsource
      cases hsource
      exact hne hdirectory
    have hstart := walk_parse hplace
    rw [start_parse] at hstart
    obtain ⟨k, -, happend⟩ := walk_append (f := true) linkLimit _ _ hnames hstart hdirectory
    rw [join_parse, if_neg (by simp [hroot])]
    exact (happend linkLimit).trans (walk_mono _ _ _ hsource _ (Nat.le_add_left linkLimit k))

/-- A source resolves to the file that it reaches, if no link is overlooked. -/
theorem sourcePath_of_reaches (ht : t.Named) (h : Reaches t root source l)
    (hn : t.node? l = some (.file octets))
    (hsurveyed : t.Surveyed ((Path.parse root).join (.parse source))) :
    sourcePath t (.parse root) (Text.unitsOf source) = .ok (.ofLocation l) := by
  have hnames : ∀ name ∈ ((Path.parse root).join (.parse source)).names, name ≠ "" :=
    fun name hname => ((Path.proper_parse root).join (Path.proper_parse source) name hname).nonempty
  rw [sourcePath_unitsOf, ht.resolve_of_walk hn nofun (by decide)
    (h.walk (by rw [hn]; nofun)) hnames hsurveyed, mapError_ok]

/-- The path of a file's place, taken as a source, resolves to itself. -/
theorem sourcePath_place (ht : t.Named) (hn : t.node? l = some (.file octets)) (base : Path) :
    sourcePath t base (Text.unitsOf (Path.ofLocation l).text) = .ok (.ofLocation l) := by
  have hentry := ht.names l (by rw [hn]; nofun)
  have hparse : Path.parse (Path.ofLocation l).text = .ofLocation l :=
    Path.parse_text (fun name hname => (hentry name hname).toIsName)
      fun name hname => (hentry name hname).ne_dot
  have hjoin : base.join (.ofLocation l) = .ofLocation l := rfl
  rw [sourcePath_unitsOf, hparse, hjoin, ht.resolve_place hn nofun, mapError_ok]

theorem root_absolute (p : Path) : (t.absolute p).root ≠ .relative := by
  obtain ⟨root, names⟩ := p
  cases root <;> nofun

/-- What a pattern gives is where the file is, unless a resolution was cut short on the way. -/
theorem exists_place_of_resolvePattern (ht : t.Named)
    (h : resolvePattern t (.parse root) pattern = .ok files) (hp : p ∈ files) (text : String)
    (hresolve : t.resolve ((Path.parse root).join (.parse text)) = .ok p)
    (hconcludes : Concludes t ((Path.parse root).join (.parse text))) :
    ∃ l octets, p = .ofLocation l ∧ t.node? l = some (.file octets) := by
  have hunslashed : ∀ name ∈ ((Path.parse root).join (.parse text)).names, '/' ∉ name.toList :=
    fun name hname => ((Path.proper_parse root).join (Path.proper_parse text) name hname).unslashed
  obtain ⟨octets, hread⟩ := exists_read_of_resolvePattern h hp
  obtain ⟨l, hplace, hn⟩ :=
    ht.place_of_resolve hresolve hunslashed hconcludes.whole hconcludes.size_le hread
  exact ⟨l, octets, hplace, hn⟩

/-- Sources meet the files of a pattern. A pattern fails at a limit or has its files in increasing
order, and each of them is at the path of its place unless its resolution was cut short. A source that
reaches a file resolves to that place, unless a link was overlooked. -/
theorem sources_meet_files (ht : t.Named) (base root pattern source : String) :
    (∀ e, resolvePattern t (.parse base) pattern = .error e →
      Overrun t ('\x00' ∈ base.toList ∨ '\x00' ∈ pattern.toList) e) ∧
    (∀ files, resolvePattern t (.parse base) pattern = .ok files →
      files.Pairwise (fun p q => p.order q = .lt) ∧
      ∃ found, find t (.parse base) pattern = .ok found ∧ ∀ p ∈ files,
        (∃ text ∈ found, t.resolve ((Path.parse base).join (.parse text)) = .ok p) ∧
        p.root ≠ .relative ∧ t.isFile p.text = .ok true ∧
        ∀ text ∈ found, t.resolve ((Path.parse base).join (.parse text)) = .ok p →
          Concludes t ((Path.parse base).join (.parse text)) →
          (∃ l octets, p = .ofLocation l ∧ t.node? l = some (.file octets)) ∧
          sourcePath t (.parse root) (Text.unitsOf p.text) = .ok p) ∧
    ∀ l octets, Reaches t root source l → t.node? l = some (.file octets) →
      t.Surveyed ((Path.parse root).join (.parse source)) →
      sourcePath t (.parse root) (Text.unitsOf source) = .ok (.ofLocation l) := by
  refine ⟨fun e => overrun_of_resolvePattern ht (fun hnone name hname hnull => ?_)
    fun hnone hnull => hnone (Or.inr hnull), fun files hfiles => ?_,
    fun l octets hreaches hn => sourcePath_of_reaches ht hreaches hn⟩
  · exact hnone (Or.inl (mem_of_slashParts (List.mem_filter.mp hname).1 hnull))
  refine ⟨increasing_of_resolvePattern hfiles, ?_⟩
  obtain ⟨found, hfound, -, hmem⟩ := mem_of_resolvePattern hfiles
  refine ⟨found, hfound, fun p hp => ?_⟩
  obtain ⟨text, htext, hresolve, hfile⟩ := (hmem p).mp hp
  refine ⟨⟨text, htext, hresolve⟩, ?_, hfile, fun text _ hresolve hconcludes => ?_⟩
  · rw [eq_absolute_of_resolve hresolve]
    exact root_absolute _
  obtain ⟨l, octets, rfl, hn⟩ := exists_place_of_resolvePattern ht hfiles hp text hresolve hconcludes
  exact ⟨⟨l, octets, rfl, hn⟩, sourcePath_place ht hn _⟩

namespace Sample

/-- A stylesheet to which a link leads, through a link to its directory. -/
def linked : FileTree where
  nodes := Std.ExtTreeMap.ofList [(["d"], Node.directory), (["d", "f.css"], Node.file []),
    (["e"], Node.directory), (["e", "up"], Node.link "../d"), (["g.css"], Node.link "e/up/f.css")]
  here := ["e"]

end Sample

theorem sources_meet_files_linked :
    Sample.linked.Named ∧
    resolvePattern Sample.linked (.parse ".") "../*.css" = .ok [.ofLocation ["d", "f.css"]] ∧
    find Sample.linked (.parse ".") "../*.css" = .ok ["../g.css"] ∧
    Concludes Sample.linked ((Path.parse ".").join (.parse "../g.css")) ∧
    sourcePath Sample.linked (.parse ".") (Text.unitsOf "/d/f.css") = .ok (.ofLocation ["d", "f.css"]) ∧
    Reaches Sample.linked "." "./up/../g.css" ["d", "f.css"] ∧
    Sample.linked.node? ["d", "f.css"] = some (.file []) ∧
    Sample.linked.Surveyed ((Path.parse ".").join (.parse "./up/../g.css")) ∧
    sourcePath Sample.linked (.parse ".") (Text.unitsOf "./up/../g.css") =
      .ok (.ofLocation ["d", "f.css"]) := by
  obtain ⟨ht, hfiles, hfind, hresolve, hwhole, hsize, hroot, hsteps, hn, hsurveyed⟩ :
      Sample.linked.Named ∧
      resolvePattern Sample.linked (.parse ".") "../*.css" = .ok [.ofLocation ["d", "f.css"]] ∧
      find Sample.linked (.parse ".") "../*.css" = .ok ["../g.css"] ∧
      Sample.linked.resolve ((Path.parse ".").join (.parse "../g.css")) =
        .ok (.ofLocation ["d", "f.css"]) ∧
      (Sample.linked.ascend ((Path.parse ".").join (.parse "../g.css"))).ending = .whole ∧
      (Sample.linked.ascend ((Path.parse ".").join (.parse "../g.css"))).path.text.utf8ByteSize ≤
        pathLimit ∧
      Sample.linked.node? ["e"] = some .directory ∧
      Sample.linked.walk true linkLimit ["e"] (Route.parse "./up/../g.css").steps =
        .ok (.found ["d", "f.css"]) ∧
      Sample.linked.node? ["d", "f.css"] = some (.file []) ∧
      Sample.linked.Surveyed ((Path.parse ".").join (.parse "./up/../g.css")) := by decide +kernel
  have hconcludes : Concludes Sample.linked ((Path.parse ".").join (.parse "../g.css")) := ⟨hwhole, hsize⟩
  have hreaches : Reaches Sample.linked "." "./up/../g.css" ["d", "f.css"] :=
    .relative ["e"] (by decide) walk_dot hroot hsteps
  obtain ⟨-, hmatched, hsource⟩ := sources_meet_files ht "." "." "../*.css" "./up/../g.css"
  obtain ⟨-, found, hfound, hall⟩ := hmatched _ hfiles
  obtain rfl := Except.ok.inj (hfind.symm.trans hfound)
  obtain ⟨-, -, -, hplace⟩ := hall _ (List.mem_singleton.mpr rfl)
  have hback := (hplace _ (List.mem_singleton.mpr rfl) hresolve hconcludes).2
  exact ⟨ht, hfiles, hfind, hconcludes, hback, hreaches, hn, hsurveyed, hsource _ _ hreaches hn hsurveyed⟩

namespace Sample

/-- A stylesheet, a link to it, and a link that its own target goes through. -/
def tangled : FileTree where
  nodes := Std.ExtTreeMap.ofList [(["f"], Node.link "g"), (["g"], Node.file []),
    (["x"], Node.link "n/../x/../f")]
  here := []

/-- What is in the tree. -/
theorem nodes_tangled : tangled.Named ∧ tangled.locations = [["f"], ["g"], ["x"]] ∧
    tangled.childNames [] = ["f", "g", "x"] ∧ tangled.node? ["f"] = some (.link "g") ∧
    tangled.node? ["g"] = some (.file []) ∧ tangled.node? ["x"] = some (.link "n/../x/../f") ∧
    tangled.node? ["n"] = none := by
  decide +kernel

/-- Where the ways through the links lead. -/
theorem ways_tangled : tangled.walk true linkLimit [] ["f"] = .ok (.found ["g"]) ∧
    tangled.stat (Path.ofLocation ["f"]).text = .ok (.file []) ∧
    resolvePattern tangled (.parse ".") "x" = .ok [.ofLocation ["f"]] ∧
    sourcePath tangled (.parse ".") (Text.unitsOf (Path.ofLocation ["f"]).text) = .ok (.ofLocation ["g"]) := by
  decide +kernel

theorem node_tangled {name : String} (h : tangled.node? [name] ≠ none) :
    name = "f" ∨ name = "g" ∨ name = "x" := by
  have hmem := (mem_locations_iff (List.cons_ne_nil name [])).mpr h
  rw [nodes_tangled.2.1] at hmem
  simpa using hmem

/-- No way through the tree goes through two links. -/
theorem walk_tangled (names : List String) : tangled.walk true 1 [] names ≠ .error .tooManyLinks := by
  obtain ⟨-, -, -, hf, hg, hx, hn⟩ := nodes_tangled
  induction names with
  | nil => simp
  | cons name rest ih =>
    by_cases hdot : name = "."
    · rwa [hdot, walk_dot]
    by_cases hup : name = ".."
    · rwa [hup, walk_up]
    by_cases hsize : name.utf8ByteSize ≤ nameLimit
    · rw [walk_cons, move_of_ordinary ⟨hdot, hup, hsize⟩, enter, List.nil_append]
      by_cases hnone : tangled.node? [name] = none
      · rw [hnone]
        cases rest <;> simp
      rcases node_tangled hnone with rfl | rfl | rfl
      · have hroute : Route.parse "g" = ⟨false, ["g"], false, 1⟩ := by decide
        rw [hf]
        dsimp only
        rw [if_neg (by simp), if_neg (by decide), hroute]
        show tangled.walk true 0 [] ("g" :: rest) ≠ _
        rw [walk_cons, move_of_ordinary ⟨by decide, by decide, by decide⟩, enter, List.nil_append, hg]
        cases rest <;> simp
      · rw [hg]
        cases rest <;> simp
      · have hroute : Route.parse "n/../x/../f" = ⟨false, ["n", "..", "x", "..", "f"], false, 11⟩ := by
          decide
        rw [hx]
        dsimp only
        rw [if_neg (by simp), if_neg (by decide), hroute]
        show tangled.walk true 0 [] ("n" :: (["..", "x", "..", "f"] ++ rest)) ≠ _
        rw [walk_cons, move_of_ordinary ⟨by decide, by decide, by decide⟩, enter, List.nil_append, hn]
        simp
    · rw [walk_cons, move, if_neg hdot, if_neg hup, if_pos (Nat.lt_of_not_le hsize)]
      simp

theorem stat_tangled (path p : String) (o : Option String) :
    tangled.stat path ≠ .error (.refused .tooManyLinks p o) := by
  intro h
  obtain ⟨r, hwalk⟩ := exists_walk_of_stat h
  have hstart : tangled.start r = [] := ite_self []
  rw [hstart, walk_mono_of_ne (walk_tangled r.steps) 1 [] _ rfl linkLimit (by decide)] at hwalk
  exact walk_tangled r.steps hwalk

/-- A path of 4094 octets that leads to where it starts. -/
def farRoot : Path := ⟨.relative, List.replicate 1365 ".."⟩

theorem eq_up_of_farRoot {name : String} (h : name ∈ farRoot.names) : name = ".." :=
  (List.mem_replicate.mp h).2

/-- To go up from the top is to stay there. -/
theorem walk_ups {k : Nat} (n : Nat) :
    tangled.walk true k [] (List.replicate n "..") = .ok (.found []) := by
  induction n with
  | zero => exact walk_nil
  | succ n ih =>
    rw [List.replicate_succ, walk_up]
    exact ih

theorem straight_farRoot : tangled.Straight farRoot [] where
  root := nofun
  names := fun _ hname => Or.inr ⟨rfl, eq_up_of_farRoot hname⟩
  walk := walk_ups 1365

theorem parse_farRoot : Path.parse farRoot.text = farRoot :=
  Path.parse_text straight_farRoot.proper fun name hname => (straight_farRoot.settled name hname).2.1

/-- Every way up makes a path longer. -/
theorem size_ups (n : Nat) {names : List String} (hne : names ≠ []) :
    (Path.mk .relative (List.replicate n ".." ++ names)).text.utf8ByteSize =
      3 * n + (Path.mk .relative names).text.utf8ByteSize := by
  induction n with
  | zero => simp
  | succ n ih =>
    have hrest : List.replicate n ".." ++ names ≠ [] := List.append_ne_nil_of_right_ne_nil _ hne
    have htext : (Path.mk .relative (List.replicate (n + 1) ".." ++ names)).text =
        ".." ++ "/" ++ (Path.mk .relative (List.replicate n ".." ++ names)).text := by
      have hlast : (Path.mk .relative (List.replicate n ".." ++ names)).text =
          String.ofList (joinSlash (List.replicate n ".." ++ names)) := Path.text_of_ne_nil hrest
      rw [hlast]
      exact @Path.text_append (Path.mk .relative [".."]) _ (by simp) hrest
    have hround : (".." ++ "/").utf8ByteSize = 3 := by decide
    rw [htext, String.utf8ByteSize_append, hround, ih]
    omega

/-- A resolution goes up from where relative paths start without end. -/
theorem climb_ups (onLink : Links → Path → List String → Climb) (m n : Nat) (rest : List String) :
    tangled.climb onLink [] ⟨.relative, List.replicate m ".."⟩ (List.replicate n ".." ++ rest) =
      tangled.climb onLink [] ⟨.relative, List.replicate (m + n) ".."⟩ rest := by
  induction n generalizing m with
  | zero => rfl
  | succ n ih =>
    have hup : Path.up ⟨.relative, List.replicate m ".."⟩ = ⟨.relative, List.replicate (m + 1) ".."⟩ := by
      have hlast : List.replicate m ".." = [] ∨ (List.replicate m "..").getLast? = some ".." := by
        cases m with
        | zero => exact Or.inl rfl
        | succ m => exact Or.inr (by rw [List.replicate_succ', List.getLast?_concat])
      rw [Path.up, if_pos ⟨rfl, hlast⟩, List.replicate_succ']
    rw [List.replicate_succ, List.cons_append, climb_cons]
    show tangled.climb onLink [] (Path.up ⟨.relative, List.replicate m ".."⟩) _ = _
    rw [hup, ih, Nat.add_right_comm, Nat.add_assoc]

/-- The link's path, seen from there. -/
def farLink : Path := ⟨.relative, farRoot.names ++ ["f"]⟩

/-- It is too long to be looked at, and so the link is taken for a file. -/
theorem resolve_farLink : tangled.resolve farLink = .ok (.ofLocation ["f"]) := by
  have hf : IsEntryName "f" := by decide
  have hsize : ¬ farLink.text.utf8ByteSize ≤ pathLimit := by
    rw [farLink, farRoot, size_ups 1365 (List.cons_ne_nil _ _)]
    decide
  have hstride : tangled.stride [] farRoot "f" = .on farLink :=
    stride_on hf.nonempty hf.ne_dot hf.ne_up fun target hl =>
      hsize ((straight_farRoot.lstat_link rfl hf).mp hl).1
  have hascend : tangled.ascend farLink = ⟨[], farLink, .whole⟩ := by
    rw [ascend, climbWithin_eq]
    refine (climb_ups _ 0 1365 ["f"]).trans ?_
    rw [Nat.zero_add]
    show tangled.climb _ [] farRoot ["f"] = _
    rw [climb_cons, hstride]
    rfl
  have habsolute : tangled.absolute farLink = .ofLocation ["f"] := by
    have hplace : tangled.place farLink = goTo (tangled.place farRoot) "f" :=
      place_append (q := farRoot)
    rw [nodes_tangled.1.absolute_eq_place (q := farLink) straight_farRoot.root, hplace,
      straight_farRoot.place_eq, goTo_entry hf, List.nil_append]
  have hnull : ¬ farLink.names.any (·.toList.contains '\x00') = true := by
    simpa [farLink, or_imp, forall_and, hf.nonnull] using straight_farRoot.nonnull
  rw [FileTree.resolve, if_neg hnull, hascend]
  dsimp only
  rw [if_neg (by decide), habsolute, ways_tangled.2.1]

theorem route_farRoot :
    Route.parse farRoot.text = ⟨false, farRoot.names, false, farRoot.text.utf8ByteSize⟩ := by
  have hne : farRoot.names ≠ [] := List.cons_ne_nil _ _
  rw [Path.text_of_ne_nil hne]
  exact parse_slashed (fun _ => Root.eq_slash) hne straight_farRoot.proper

theorem reaches_farRoot : Reaches tangled farRoot.text "f" ["g"] := by
  have hsteps : (Route.parse "f").steps = ["f"] := by decide
  refine .relative [] (by decide) ?_ rfl (by rw [hsteps]; exact ways_tangled.1)
  rw [route_farRoot]
  exact walk_ups 1365

theorem leads_farRoot : tangled.Leads farRoot.text [] where
  nonempty := Path.text_ne_empty _ straight_farRoot.proper
  nonnull := nonnull_text straight_farRoot.nonnull
  walk := by
    rw [← names_parse, route_farRoot]
    exact walk_ups 1365
  node := rfl

theorem namesIn_farRoot : namesIn tangled false farRoot.text = .ok ["f", "g", "x"] := by
  have hsize : farRoot.text.utf8ByteSize ≤ pathLimit := by
    rw [farRoot, List.replicate_succ', size_ups 1364 (List.cons_ne_nil _ _)]
    decide
  rw [namesIn, leads_farRoot.list hsize, nodes_tangled.2.2.1]
  simp

theorem find_farRoot : find tangled farRoot "f*" = .ok ["f"] := by
  have hlead : leadOf "f*" = "" := by decide
  have hparts : partsOf "f*" = [Part.parse "f*"] := by decide
  have hselect : select tangled false (seen farRoot "") (Part.parse "f*") = .ok [["f"]] :=
    bind_eq_ok.mpr ⟨_, namesIn_farRoot, by decide⟩
  have hselected : selectAll tangled farRoot [Part.parse "f*"] [""] = .ok ["f"] := by
    rw [selectAll_cons_eq_ok]
    exact ⟨[["f"]], mapM_eq_ok.mpr (.cons (map_eq_ok.mpr ⟨_, hselect, by decide⟩) .nil), by decide⟩
  rw [find_of_magic (by decide), hparts, hlead, if_neg (by decide), hselected]
  decide

end Sample

/-- A file need not be at the path that a pattern gives for it: a link may be met again while its own target
is resolved, or be overlooked because its path is too long. A source that goes through a link at such a path
does not resolve to the file that it reaches. -/
theorem sources_miss_files :
    Sample.tangled.Named ∧
    (∀ path p o, Sample.tangled.stat path ≠ .error (.refused .tooManyLinks p o)) ∧
    (resolvePattern Sample.tangled (.parse ".") "x" = .ok [.ofLocation ["f"]] ∧
      resolvePattern Sample.tangled (.parse Sample.farRoot.text) "f*" = .ok [.ofLocation ["f"]] ∧
      sourcePath Sample.tangled (.parse ".") (Text.unitsOf (Path.ofLocation ["f"]).text) =
        .ok (.ofLocation ["g"])) ∧
    Reaches Sample.tangled Sample.farRoot.text "f" ["g"] ∧
    Sample.tangled.node? ["g"] = some (.file []) ∧
    sourcePath Sample.tangled (.parse Sample.farRoot.text) (Text.unitsOf "f") = .ok (.ofLocation ["f"]) := by
  have hf : Path.parse "f" = ⟨.relative, ["f"]⟩ := by decide
  have hjoin : Sample.farRoot.join ⟨.relative, ["f"]⟩ = Sample.farLink := rfl
  have hfiles : resolvePattern Sample.tangled (.parse Sample.farRoot.text) "f*" =
      .ok [.ofLocation ["f"]] := by
    have hfile : Sample.tangled.isFile (Path.ofLocation ["f"]).text = .ok true := by
      rw [isFile, Sample.ways_tangled.2.1]
      rfl
    rw [Sample.parse_farRoot, resolvePattern_eq_ok]
    refine ⟨["f"], [.ofLocation ["f"]], Sample.find_farRoot, ?_, ?_, ?_⟩
    · rw [List.forall₂_cons, hf, hjoin]
      exact ⟨Sample.resolve_farLink, .nil⟩
    · exact List.forall_mem_singleton.mpr ⟨true, hfile⟩
    · simp [List.eraseDups_cons, hfile, Except.toOption]
  obtain ⟨ht, -, -, -, hg, -⟩ := Sample.nodes_tangled
  obtain ⟨-, -, hlooped, hsource⟩ := Sample.ways_tangled
  refine ⟨ht, Sample.stat_tangled, ⟨hlooped, hfiles, hsource⟩, Sample.reaches_farRoot, hg, ?_⟩
  rw [sourcePath_unitsOf, Sample.parse_farRoot, hf, hjoin, Sample.resolve_farLink, mapError_ok]

end LintDebt
