import LintDebt.Proofs.FileTree.PathText
import LintDebt.Proofs.Text.Units

/-! # Paths put together from texts

A path may be written piece by piece: a text, a slash, and more after it. The system reads the names of
the first piece and then those of the second, and the first one tells where the path starts. So it does
not matter in which order three pieces are put together, and names that are added one by one make the
same text as all of them at once. -/

namespace LintDebt

variable {path more third name : String} {s stem rest : List Char} {names below : List String}

/-! ### Names in a text -/

/-- The names in a path as it is written. -/
def namesOf (s : List Char) : List String := ((s.splitOn '/').map String.ofList).filter (· ≠ "")

theorem names_parse (path : String) : (Route.parse path).names = namesOf path.toList := rfl

theorem namesOf_slash (s rest : List Char) : namesOf (s ++ '/' :: rest) = namesOf s ++ namesOf rest := by
  rw [namesOf, List.splitOn_append_cons_self, List.map_append, List.filter_append]
  rfl

theorem namesOf_append_slashes (hrest : ∀ c ∈ rest, c = '/') : namesOf (s ++ rest) = namesOf s := by
  induction rest generalizing s with
  | nil => rw [List.append_nil]
  | cons c rest ih =>
    obtain ⟨rfl, hslashes⟩ := List.forall_mem_cons.mp hrest
    have hnil : namesOf rest = [] := ih (s := []) hslashes
    rw [namesOf_slash, hnil, List.append_nil]

theorem mem_of_namesOf {c : Char} (h : name ∈ namesOf s) (hc : c ∈ name.toList) : c ∈ s := by
  obtain ⟨part, hpart, rfl⟩ := List.mem_map.mp (List.mem_filter.mp h).1
  rw [String.toList_ofList] at hc
  exact (Text.mem_splitOn hpart).2 c hc

/-- A character of a path is a slash, or stands in one of the names. -/
theorem mem_namesOf {c : Char} (hc : c ∈ s) : c = '/' ∨ ∃ name ∈ namesOf s, c ∈ name.toList := by
  by_cases hslash : c = '/'
  · exact Or.inl hslash
  right
  have hjoined : ['/'].intercalate (s.splitOn '/') = s := List.intercalate_splitOn '/'
  rw [← hjoined] at hc
  rcases Text.mem_intercalate hc with hc | ⟨part, hpart, hmem⟩
  · exact absurd (List.mem_singleton.mp hc) hslash
  refine ⟨String.ofList part, List.mem_filter.mpr ⟨List.mem_map_of_mem hpart, ?_⟩, by simpa using hmem⟩
  simpa using List.ne_nil_of_mem hmem

theorem isName_of_namesOf (h : name ∈ namesOf s) : IsName name := by
  obtain ⟨hmem, hne⟩ := List.mem_filter.mp h
  obtain ⟨part, hpart, rfl⟩ := List.mem_map.mp hmem
  refine ⟨of_decide_eq_true hne, ?_⟩
  rw [String.toList_ofList]
  exact (Text.mem_splitOn hpart).1

theorem namesOf_joinSlash (hnames : ∀ name ∈ names, IsName name) : namesOf (joinSlash names) = names := by
  by_cases hne : names = []
  · subst hne
    rfl
  · have hparts : (slashParts (String.ofList ([] ++ joinSlash names))).filter (· ≠ "") = names :=
      slashParts_slashed (by simp) hne hnames
    rwa [slashParts, String.toList_ofList] at hparts

/-- A text without names begins with a slash, if with anything. -/
theorem head_of_namesOf_nil (h : namesOf s = []) : s.head?.getD '/' = '/' := by
  cases s with
  | nil => rfl
  | cons c s =>
    by_contra hc
    have hc : c ≠ '/' := hc
    obtain ⟨first, rest, hsplit⟩ := List.exists_cons_of_ne_nil (List.splitOn_ne_nil '/' s)
    rw [namesOf, List.splitOn_cons_eq_if_modifyHead, if_neg (by simpa using hc), hsplit,
      List.modifyHead_cons, List.map_cons, List.filter_cons_of_pos (by simp)] at h
    cases h

/-- A path that is read back has the names in its text that lead somewhere. -/
theorem Path.parse_eq (path : String) :
    Path.parse path = Path.normal ⟨Path.rootOf path.toList, namesOf path.toList⟩ := by
  have hnames : (slashParts path).filter (fun name => name ≠ "" ∧ name ≠ ".") =
      (namesOf path.toList).filter (fun name => name ≠ "" ∧ name ≠ ".") := by
    rw [namesOf, List.filter_filter]
    apply List.filter_congr
    intro name _
    by_cases hname : name = "" <;> simp [hname]
  exact congrArg (Path.mk (Path.rootOf path.toList)) hnames

theorem parse_root_eq_relative (path : String) :
    (Path.parse path).root = .relative ↔ (Route.parse path).absolute = false := by
  change Path.rootOf path.toList = .relative ↔ _
  rw [Path.rootOf_eq, Route.parse, List.head?_eq_getElem?]
  by_cases hslash : path.toList[0]? = some '/'
  · rw [if_pos hslash]
    simp only [hslash, decide_true, Bool.true_eq_false, iff_false]
    split <;> decide
  · simp [hslash]

/-- Only the empty text leads nowhere at all. -/
theorem isEmpty_parse (hne : path ≠ "") : (Route.parse path).isEmpty = false := by
  rw [Route.isEmpty, names_parse, Bool.and_eq_false_iff]
  by_cases hnames : namesOf path.toList = []
  · left
    have hhead := head_of_namesOf_nil hnames
    obtain ⟨c, s, hpath⟩ := List.exists_cons_of_ne_nil (fun hnil => hne (String.toList_eq_nil_iff.mp hnil))
    rw [hpath] at hhead
    obtain rfl : c = '/' := hhead
    simp [Route.parse, hpath]
  · right
    simpa using hnames

/-! ### One text after another -/

/-- A path with a slash at its end; the empty one stays empty. -/
def slashed (path : String) : String :=
  if path = "" ∨ path.toList.getLast? = some '/' then path else path ++ "/"

theorem slashed_slashed (path : String) : slashed (slashed path) = slashed path := by
  by_cases hplain : path = "" ∨ path.toList.getLast? = some '/'
  · simp only [slashed, if_pos hplain]
  · have hlast : path ++ "/" = "" ∨ (path ++ "/").toList.getLast? = some '/' := Or.inr (by simp)
    simp only [slashed, if_neg hplain, if_pos hlast]

theorem joinText_eq (hmore : more.toList.head? ≠ some '/') : joinText path more = slashed path ++ more := by
  rw [joinText, if_neg hmore, slashed]
  split <;> rfl

theorem joinText_absolute (hmore : more.toList.head? = some '/') : joinText path more = more :=
  if_pos hmore

theorem slashed_append (hne : more ≠ "") : slashed (path ++ more) = path ++ slashed more := by
  have hlast : (path ++ more).toList.getLast? = more.toList.getLast? := by
    rw [String.toList_append, List.getLast?_append_of_ne_nil _ (by simpa using hne)]
  rw [slashed, slashed, hlast]
  by_cases hslash : more.toList.getLast? = some '/'
  · simp [hslash]
  · simp [hslash, hne, String.append_assoc]

theorem head?_slashed (hne : path ≠ "") : (slashed path).toList.head? = path.toList.head? := by
  rw [slashed]
  split
  · rfl
  · rw [String.toList_append, List.head?_append_of_ne_nil _ (by simpa using hne)]

theorem joinText_ne_empty (hpath : path ≠ "") : joinText path more ≠ "" := by
  by_cases hmore : more.toList.head? = some '/'
  · rw [joinText_absolute hmore]
    rintro rfl
    cases hmore
  · intro hempty
    rw [joinText_eq hmore, String.append_eq_empty_iff, slashed] at hempty
    split at hempty
    · exact hpath hempty.1
    · simp at hempty

theorem head?_joinText (hpath : path ≠ "") (hmore : more.toList.head? ≠ some '/') :
    (joinText path more).toList.head? = path.toList.head? := by
  have hne : (slashed path).toList ≠ [] := by
    intro hnil
    have hhead := head?_slashed hpath
    rw [hnil] at hhead
    exact hpath (by simpa using hhead.symm)
  rw [joinText_eq hmore, String.toList_append, List.head?_append_of_ne_nil _ hne, head?_slashed hpath]

/-- The order in which pieces are put together does not matter. -/
theorem joinText_assoc (hmore : more ≠ "") (hthird : third.toList.head? ≠ some '/') :
    joinText (joinText path more) third = joinText path (joinText more third) := by
  have hhead := head?_joinText hmore hthird
  by_cases hslash : more.toList.head? = some '/'
  · rw [joinText_absolute hslash, joinText_absolute (hhead.trans hslash)]
  · have hmiddle : (joinText more third).toList.head? ≠ some '/' := by rwa [hhead]
    rw [joinText_eq hslash, joinText_eq hmiddle, joinText_eq hthird, joinText_eq hthird,
      slashed_append hmore, String.append_assoc]

theorem namesOf_slashed (path : String) (s : List Char) :
    namesOf ((slashed path).toList ++ s) = namesOf path.toList ++ namesOf s := by
  rw [slashed]
  split
  · next hslash =>
    rcases hslash with rfl | hslash
    · rfl
    · obtain ⟨stem, hstem⟩ := List.getLast?_eq_some_iff.mp hslash
      rw [hstem, List.append_assoc, List.singleton_append, namesOf_slash, namesOf_slash]
      exact congrArg (· ++ namesOf s) (List.append_nil _).symm
  · rw [String.toList_append, List.append_assoc]
    exact namesOf_slash _ _

theorem namesOf_joinText (hmore : more.toList.head? ≠ some '/') :
    namesOf (joinText path more).toList = namesOf path.toList ++ namesOf more.toList := by
  rw [joinText_eq hmore, String.toList_append, namesOf_slashed]

theorem absolute_joinText (hpath : path ≠ "") (hmore : more.toList.head? ≠ some '/') :
    (Route.parse (joinText path more)).absolute = (Route.parse path).absolute := by
  rw [Route.parse, Route.parse, head?_joinText hpath hmore]

theorem size_le_joinText (hmore : more.toList.head? ≠ some '/') :
    path.utf8ByteSize ≤ (joinText path more).utf8ByteSize := by
  rw [joinText_eq hmore, slashed]
  split <;> simp only [String.utf8ByteSize_append] <;> omega

/-- What comes after a text does not change where a path starts, unless slashes meet. -/
theorem Path.rootOf_append (hne : stem ≠ [])
    (hseam : stem.getLast? = some '/' → rest.head? ≠ some '/') :
    Path.rootOf (stem ++ rest) = Path.rootOf stem := by
  rw [List.head?_eq_getElem?] at hseam
  rcases stem with _ | ⟨a, _ | ⟨b, _ | ⟨c, stem⟩⟩⟩
  · exact absurd rfl hne
  · by_cases ha : a = '/'
    · have hrest := hseam (by rw [ha]; rfl)
      simp [Path.rootOf_eq, hrest]
    · simp [Path.rootOf_eq, ha]
  · by_cases hb : b = '/'
    · have hrest := hseam (by rw [hb]; rfl)
      simp [Path.rootOf_eq, hrest]
    · simp [Path.rootOf_eq, hb]
  · simp [Path.rootOf_eq]

theorem rootOf_joinText (hpath : path ≠ "") (hmore : more.toList.head? ≠ some '/') :
    Path.rootOf (joinText path more).toList = Path.rootOf path.toList := by
  have hne : path.toList ≠ [] := by simpa using hpath
  rw [joinText_eq hmore, String.toList_append, slashed]
  split
  · exact Path.rootOf_append hne fun _ => hmore
  · next hplain =>
    rw [String.toList_append, List.append_assoc]
    exact Path.rootOf_append hne fun hlast => absurd (Or.inr hlast) hplain

/-- A path put together from two texts is read back as the one path with the names of the other. -/
theorem Path.parse_joinText (hpath : path ≠ "") (hmore : more.toList.head? ≠ some '/') :
    Path.parse (joinText path more) =
      ⟨(Path.parse path).root, (Path.parse path).names ++ (Path.parse more).names⟩ := by
  simp only [Path.parse_eq, rootOf_joinText hpath hmore, namesOf_joinText hmore, Path.normal,
    List.filter_append]

theorem Path.text_ne_empty (p : Path) (hp : p.Proper) : p.text ≠ "" := by
  by_cases hne : p.names = []
  · obtain ⟨root, names⟩ := p
    obtain rfl : names = [] := hne
    cases root <;> decide
  · rw [Path.text_of_ne_nil hne]
    simp [joinSlash_ne_nil hne hp]

theorem Path.parse_text_parse (path : String) : Path.parse (Path.parse path).text = Path.parse path :=
  Path.parse_text (Path.proper_parse path) fun _ hname =>
    (of_decide_eq_true (List.mem_filter.mp hname).2).2

theorem join_parse (path more : String) : (Path.parse path).join (.parse more) =
    if (Route.parse more).absolute then .parse more
    else ⟨(Path.parse path).root, (Path.parse path).names ++ (Path.parse more).names⟩ := by
  have hroot := parse_root_eq_relative more
  rw [Path.join]
  split
  · next h => rw [if_neg (by simp [hroot.mp h])]
  · next h => rw [if_pos (by simpa using mt hroot.mpr h)]

/-- To write a path after another is to join them. -/
theorem Path.parse_joinText_text (path more : String) :
    Path.parse (joinText (Path.parse path).text more) = (Path.parse path).join (.parse more) := by
  have habsolute : (Route.parse more).absolute = true ↔ more.toList.head? = some '/' := decide_eq_true_iff
  rw [join_parse]
  split
  · next hslash => rw [joinText_absolute (habsolute.mp hslash)]
  · next hslash =>
    rw [Path.parse_joinText (Path.text_ne_empty _ (Path.proper_parse path)) (mt habsolute.mpr hslash),
      Path.parse_text_parse]

/-! ### Names after a text -/

theorem head?_ofList_joinSlash (hnames : ∀ name ∈ names, IsName name) :
    (String.ofList (joinSlash names)).toList.head? ≠ some '/' := by
  rw [String.toList_ofList]
  exact head?_joinSlash hnames

/-- Without names there is a slash more all the same. -/
theorem joinNames_nil (path : String) : joinNames path [] = slashed path := by
  have hempty : String.ofList (joinSlash []) = "" := rfl
  rw [joinNames, hempty, joinText_eq (by decide), String.append_empty]

theorem joinNames_singleton (path name : String) : joinNames path [name] = joinText path name := by
  rw [joinNames, joinSlash_singleton, String.ofList_toList]

theorem namesOf_joinNames (hnames : ∀ name ∈ names, IsName name) :
    namesOf (joinNames path names).toList = namesOf path.toList ++ names := by
  rw [joinNames, namesOf_joinText (head?_ofList_joinSlash hnames), String.toList_ofList,
    namesOf_joinSlash hnames]

/-- Names that are added one after the other make the same text as all of them. -/
theorem joinNames_joinNames (hbelow : ∀ name ∈ below, IsName name) (hnames : ∀ name ∈ names, IsName name)
    (hne : names ≠ []) : joinNames (joinNames path below) names = joinNames path (below ++ names) := by
  have hhead := head?_ofList_joinSlash hnames
  by_cases hnil : below = []
  · subst hnil
    rw [joinNames_nil, joinNames, joinText_eq hhead, slashed_slashed, ← joinText_eq hhead]
    rfl
  · have hbelowText : String.ofList (joinSlash below) ≠ "" := by
      simpa using joinSlash_ne_nil hnil hbelow
    have hlast : slashed (String.ofList (joinSlash below)) = String.ofList (joinSlash below) ++ "/" := by
      rw [slashed, if_neg]
      rw [String.toList_ofList]
      exact not_or.mpr ⟨hbelowText, getLast?_joinSlash hbelow⟩
    rw [joinNames, joinNames, joinText_assoc hbelowText hhead, joinNames, joinText_eq hhead, hlast,
      joinSlash_append hnil hne, String.append_assoc]
    congr 1
    rw [← String.toList_inj]
    simp

/-- The text of a path with names after it. -/
theorem joinNames_text {p : Path} (hp : p.Proper) (hpath : p.names ≠ []) (hnames : ∀ name ∈ names, IsName name)
    (hne : names ≠ []) : joinNames p.text names = (Path.mk p.root (p.names ++ names)).text := by
  have hlast : p.text.toList.getLast? ≠ some '/' := by
    rw [Path.text_of_ne_nil hpath, String.toList_ofList,
      List.getLast?_append_of_ne_nil _ (joinSlash_ne_nil hpath hp)]
    exact getLast?_joinSlash hp
  have hslashed : slashed p.text = p.text ++ "/" :=
    if_neg (not_or.mpr ⟨Path.text_ne_empty p hp, hlast⟩)
  rw [joinNames, joinText_eq (head?_ofList_joinSlash hnames), hslashed, Path.text_append hpath hne]

theorem size_le_joinNames (hnames : ∀ name ∈ names, IsName name) :
    path.utf8ByteSize ≤ (joinNames path names).utf8ByteSize :=
  size_le_joinText (head?_ofList_joinSlash hnames)

/-! ### Where a text starts -/

namespace FileTree

variable {t : FileTree}

theorem start_parse (t : FileTree) (path : String) : t.start (.parse path) = t.origin (.parse path) := by
  rw [start, origin]
  simp only [parse_root_eq_relative]
  cases (Route.parse path).absolute <;> rfl

theorem start_joinText (t : FileTree) (hpath : path ≠ "") (hmore : more.toList.head? ≠ some '/') :
    t.start (.parse (joinText path more)) = t.start (.parse path) := by
  rw [start, start, absolute_joinText hpath hmore]

end FileTree
end LintDebt
