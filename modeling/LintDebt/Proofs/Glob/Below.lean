import LintDebt.Glob.Search
import LintDebt.Proofs.FileTree.Linkless

/-! # What a search finds below a directory

A search goes into the visible directories below a directory, at any depth, as long as it can list those
above them. Of what is in them it takes the names that a pattern covers, if it can list them too. What
can be listed depends on the length of the path as the search writes it, and a directory that stands for
`**` itself is written with a slash after it. -/

namespace LintDebt.Glob

open FileTree

variable {t : FileTree} {base : Path} {dir lead text : String} {l : Location} {name : String}
  {names below : List String} {directoriesOnly : Bool} {room : Nat}

/-- Holds for the names that lead from a directory to one below it that a search goes into. -/
structure Entered (t : FileTree) (dir : String) (l : Location) (below : List String) : Prop where
  visible : ∀ name ∈ below, isHidden name = false
  node : t.node? (l ++ below) = some .directory
  listed : below ≠ [] → (below.dropLast.foldl joinText dir).utf8ByteSize ≤ pathLimit

/-- Holds for the names that lead from a directory to one below it in which a search looks for names. -/
structure Searched (t : FileTree) (dir : String) (l : Location) (below : List String) : Prop where
  visible : ∀ name ∈ below, isHidden name = false
  node : t.node? (l ++ below) = some .directory
  size_le : (joinNames dir below).utf8ByteSize ≤ pathLimit

/-- To go into names one by one is to add them all. -/
theorem foldl_joinText (hnames : ∀ name ∈ names, IsName name) (hne : names ≠ []) :
    names.foldl joinText dir = joinNames dir names := by
  induction names generalizing dir with
  | nil => exact absurd rfl hne
  | cons name rest ih =>
    rw [List.foldl_cons]
    by_cases hnil : rest = []
    · rw [hnil, joinNames_singleton]
      rfl
    · obtain ⟨hname, hrest⟩ := List.forall_mem_cons.mp hnames
      rw [ih hrest hnil, ← joinNames_singleton,
        joinNames_joinNames (List.forall_mem_singleton.mpr hname) hrest hnil]
      rfl

theorem size_le_foldl (hnames : ∀ name ∈ names, IsName name) :
    dir.utf8ByteSize ≤ (names.foldl joinText dir).utf8ByteSize := by
  by_cases hnil : names = []
  · rw [hnil]
    exact Nat.le_refl _
  · rw [foldl_joinText hnames hnil]
    exact size_le_joinNames hnames

/-- A directory that can be listed is listed with all names in it, or with those of directories. -/
theorem exists_namesIn (directoriesOnly : Bool) (ht : t.Linkless) (h : t.Leads dir l) :
    ∃ names, namesIn t directoriesOnly dir = .ok names ∧ ∀ name, name ∈ names ↔
      dir.utf8ByteSize ≤ pathLimit ∧ t.node? (l ++ [name]) ≠ none ∧
        (directoriesOnly = true → t.node? (l ++ [name]) = some .directory) := by
  by_cases hlong : pathLimit < dir.utf8ByteSize
  · refine ⟨[], ?_, fun name => ?_⟩
    · rw [namesIn, h.list_of_long hlong]
    · simp [Nat.not_le.mpr hlong]
  · have hsize := Nat.not_lt.mp hlong
    refine ⟨(t.childNames l).filter fun name =>
      t.entryIsDirectory (l ++ [name]) (joinText dir name) || !directoriesOnly, ?_, fun name => ?_⟩
    · rw [namesIn, h.list hsize]
      simp [List.filter_map, Function.comp_def]
    rw [List.mem_filter, mem_childNames, Bool.or_eq_true, ht.entryIsDirectory_iff, Bool.not_eq_true']
    constructor
    · rintro ⟨hn, hkept⟩
      exact ⟨hsize, hn, fun honly => hkept.resolve_right (by simp [honly])⟩
    · rintro ⟨-, hn, honly⟩
      refine ⟨hn, ?_⟩
      cases directoriesOnly with
      | false => exact Or.inr rfl
      | true => exact Or.inl (honly rfl)

theorem entryNames (ht : t.Linkless) (hn : t.node? (l ++ below) ≠ none) :
    ∀ name ∈ below, IsName name :=
  fun name hname => (ht.names _ hn name (List.mem_append_right l hname)).toIsName

theorem Entered.entryNames (ht : t.Linkless) (h : Entered t dir l below) :
    ∀ name ∈ below, IsName name :=
  Glob.entryNames ht (by rw [h.node]; simp)

theorem Searched.entryNames (ht : t.Linkless) (h : Searched t dir l below) :
    ∀ name ∈ below, IsName name :=
  Glob.entryNames ht (by rw [h.node]; simp)

theorem entered_nil (hdir : t.node? l = some .directory) : Entered t dir l [] := by
  refine ⟨by simp, ?_, fun hne => absurd rfl hne⟩
  rw [List.append_nil]
  exact hdir

/-- A search goes into what is below a directory by way of a directory in it. -/
theorem entered_cons (ht : t.Linkless) : Entered t dir l (name :: below) ↔
    dir.utf8ByteSize ≤ pathLimit ∧ isHidden name = false ∧ t.node? (l ++ [name]) = some .directory ∧
      Entered t (joinText dir name) (l ++ [name]) below := by
  have hsplit : l ++ name :: below = l ++ [name] ++ below := by simp
  constructor
  · intro h
    obtain ⟨hname, hbelow⟩ := List.forall_mem_cons.mp h.visible
    obtain ⟨-, hnames⟩ := List.forall_mem_cons.mp (h.entryNames ht)
    have hnode := h.node
    have hlisted := h.listed (List.cons_ne_nil name below)
    rw [hsplit] at hnode
    by_cases hnil : below = []
    · rw [hnil, List.append_nil] at hnode
      rw [hnil] at hlisted ⊢
      exact ⟨hlisted, hname, hnode, entered_nil hnode⟩
    · rw [List.dropLast_cons_of_ne_nil hnil, List.foldl_cons] at hlisted
      have hfirst : IsName name := h.entryNames ht name List.mem_cons_self
      have hdir : dir.utf8ByteSize ≤ (joinText dir name).utf8ByteSize := by
        rw [← joinNames_singleton]
        exact size_le_joinNames (List.forall_mem_singleton.mpr hfirst)
      have hrest : (joinText dir name).utf8ByteSize ≤
          (below.dropLast.foldl joinText (joinText dir name)).utf8ByteSize :=
        size_le_foldl fun other hother => hnames other (List.dropLast_subset _ hother)
      exact ⟨Nat.le_trans hdir (Nat.le_trans hrest hlisted), hname,
        ht.above hnil (by rw [hnode]; simp), hbelow, hnode, fun _ => hlisted⟩
  · rintro ⟨hsize, hname, hdir, h⟩
    refine ⟨List.forall_mem_cons.mpr ⟨hname, h.visible⟩, ?_, fun _ => ?_⟩
    · rw [hsplit]
      exact h.node
    · by_cases hnil : below = []
      · rw [hnil]
        exact hsize
      · rw [List.dropLast_cons_of_ne_nil hnil]
        exact h.listed hnil

/-- What is found by way of a name: the name itself, and what is below it. -/
def through (t : FileTree) (directoriesOnly : Bool) (room : Nat) (dir name : String) :
    Except Fault (List (List String)) :=
  (under t directoriesOnly room (joinText dir name)).map fun below => [name] :: below.map (name :: ·)

theorem under_succ : under t directoriesOnly (room + 1) dir = namesIn t directoriesOnly dir >>= fun here =>
    ((here.filter (!isHidden ·)).mapM (through t directoriesOnly room dir)).map List.flatten := by
  have hthrough : (fun name => do
      let below ← under t directoriesOnly room (joinText dir name)
      return [name] :: below.map (name :: ·)) = through t directoriesOnly room dir := by
    funext name
    unfold through
    cases under t directoriesOnly room (joinText dir name) <;> rfl
  rw [under, hthrough]
  refine congrArg _ (funext fun here => ?_)
  cases (here.filter (!isHidden ·)).mapM (through t directoriesOnly room dir) <;> rfl

theorem under_eq_ok {found : List (List String)} :
    under t directoriesOnly (room + 1) dir = .ok found ↔
      ∃ here parts, namesIn t directoriesOnly dir = .ok here ∧
        (here.filter (!isHidden ·)).mapM (through t directoriesOnly room dir) = .ok parts ∧
        parts.flatten = found := by
  rw [under_succ, bind_eq_ok]
  refine exists_congr fun here => ?_
  rw [map_eq_ok, ← exists_and_left]

/-- By way of a directory all is found that a search goes into below it. -/
theorem mem_through {part : List (List String)} (hdir : t.node? (l ++ [name]) = some .directory)
    (hpart : through t true room dir name = .ok part)
    (hbelow : ∀ below, under t true room (joinText dir name) = .ok below → ∀ rest, rest ∈ below ↔
      rest ≠ [] ∧ Entered t (joinText dir name) (l ++ [name]) rest) :
    names ∈ part ↔ ∃ rest, names = name :: rest ∧ Entered t (joinText dir name) (l ++ [name]) rest := by
  obtain ⟨below, hfound, rfl⟩ := map_eq_ok.mp hpart
  rw [List.mem_cons, List.mem_map]
  constructor
  · rintro (rfl | ⟨rest, hrest, rfl⟩)
    · exact ⟨[], rfl, entered_nil hdir⟩
    · exact ⟨rest, rfl, ((hbelow below hfound rest).mp hrest).2⟩
  · rintro ⟨rest, rfl, hrest⟩
    by_cases hnil : rest = []
    · exact Or.inl (by rw [hnil])
    · exact Or.inr ⟨rest, (hbelow below hfound rest).mpr ⟨hnil, hrest⟩, rfl⟩

theorem leads_joinText (ht : t.Linkless) (h : t.Leads dir l)
    (hdir : t.node? (l ++ [name]) = some .directory) : t.Leads (joinText dir name) (l ++ [name]) := by
  rw [← joinNames_singleton]
  exact h.below ht hdir

/-- What is found below a directory are the directories that a search goes into. -/
theorem mem_under {found : List (List String)} (ht : t.Linkless) (h : t.Leads dir l)
    (hfound : under t true room dir = .ok found) :
    names ∈ found ↔ names ≠ [] ∧ Entered t dir l names := by
  -- With every level the search moves to another directory, so this is general in it.
  induction room generalizing dir l found names with
  | zero => cases hfound
  | succ room ih =>
    obtain ⟨here, parts, hhere, hparts, rfl⟩ := under_eq_ok.mp hfound
    obtain ⟨listed, hlisted, hmem⟩ := exists_namesIn true ht h
    obtain rfl : here = listed := Except.ok.inj (hhere.symm.trans hlisted)
    have hthrough : ∀ name ∈ here.filter (!isHidden ·), ∀ part,
        through t true room dir name = .ok part → ∀ names, names ∈ part ↔
          ∃ rest, names = name :: rest ∧ Entered t (joinText dir name) (l ++ [name]) rest := by
      intro name hname part hpart names
      obtain ⟨-, -, honly⟩ := (hmem name).mp (List.mem_filter.mp hname).1
      have hdir := honly rfl
      exact mem_through hdir hpart fun below hbelow rest => ih (leads_joinText ht h hdir) hbelow
    rw [mem_flatten_of_mapM hparts hthrough]
    constructor
    · rintro ⟨name, hname, rest, rfl, hrest⟩
      obtain ⟨hmember, hvisible⟩ := List.mem_filter.mp hname
      obtain ⟨hsize, -, honly⟩ := (hmem name).mp hmember
      exact ⟨List.cons_ne_nil name rest,
        (entered_cons ht).mpr ⟨hsize, by simpa using hvisible, honly rfl, hrest⟩⟩
    · rintro ⟨hne, hentered⟩
      obtain ⟨name, rest, rfl⟩ := List.exists_cons_of_ne_nil hne
      obtain ⟨hsize, hvisible, hdir, hrest⟩ := (entered_cons ht).mp hentered
      have hhere := (hmem name).mpr ⟨hsize, by rw [hdir]; simp, fun _ => hdir⟩
      exact ⟨name, List.mem_filter.mpr ⟨hhere, by simpa using hvisible⟩, rest, rfl, hrest⟩

/-- A search ends if the directories that it goes into do not lie too deep in each other. -/
theorem exists_under (ht : t.Linkless) (h : t.Leads dir l) (hroom : 0 < room)
    (hshallow : ∀ names, Entered t dir l names → names.length < room) :
    ∃ found, under t true room dir = .ok found := by
  induction room generalizing dir l with
  | zero => omega
  | succ room ih =>
    obtain ⟨here, hhere, hmem⟩ := exists_namesIn true ht h
    have hthrough : ∀ name ∈ here.filter (!isHidden ·),
        ∃ part, through t true room dir name = .ok part := by
      intro name hname
      obtain ⟨hlisted, hvisible⟩ := List.mem_filter.mp hname
      obtain ⟨hsize, -, honly⟩ := (hmem name).mp hlisted
      have hdir := honly rfl
      have hdeeper : ∀ rest, Entered t (joinText dir name) (l ++ [name]) rest →
          rest.length < room := by
        intro rest hrest
        have hlength :=
          hshallow _ ((entered_cons ht).mpr ⟨hsize, by simpa using hvisible, hdir, hrest⟩)
        rw [List.length_cons] at hlength
        omega
      obtain ⟨below, hbelow⟩ :=
        ih (leads_joinText ht h hdir) (hdeeper [] (entered_nil hdir)) hdeeper
      exact ⟨_, map_eq_ok.mpr ⟨below, hbelow, rfl⟩⟩
    obtain ⟨parts, hparts⟩ := exists_mapM hthrough
    exact ⟨_, under_eq_ok.mpr ⟨here, parts, hhere, hparts, rfl⟩⟩

theorem selectAll_cons {part : Part} {rest : List Part} {dirs : List String} :
    selectAll t base (part :: rest) dirs =
      dirs.mapM (fun dir => (select t (!rest.isEmpty) (seen base dir) part).map (·.map (joinNames dir))) >>=
        fun parts => selectAll t base rest parts.flatten.eraseDups := by
  have hstep : (fun dir => do
      return (← select t (!rest.isEmpty) (seen base dir) part).map (joinNames dir)) =
      fun dir => (select t (!rest.isEmpty) (seen base dir) part).map (·.map (joinNames dir)) := by
    funext dir
    cases select t (!rest.isEmpty) (seen base dir) part <;> rfl
  rw [selectAll, hstep]

theorem selectAll_cons_eq_ok {part : Part} {rest : List Part} {dirs found : List String} :
    selectAll t base (part :: rest) dirs = .ok found ↔
      ∃ parts, dirs.mapM (fun dir =>
          (select t (!rest.isEmpty) (seen base dir) part).map (·.map (joinNames dir))) = .ok parts ∧
        selectAll t base rest parts.flatten.eraseDups = .ok found := by
  rw [selectAll_cons, bind_eq_ok]

/-- A pattern with magic in it is searched for part by part. -/
theorem find_of_magic {pattern : String} (hmagic : isMagic pattern = true) : find t base pattern =
    if partLimit < (partsOf pattern).length then .error (.tooDeep none)
    else (selectAll t base (partsOf pattern) [leadOf pattern]).map (·.filter (· ≠ "")) := by
  rw [find, if_pos hmagic]
  generalize partsOf pattern = parts
  dsimp only
  split
  · rfl
  · cases selectAll t base parts [leadOf pattern] <;> rfl

/-- Any other is found as it is, or not at all. -/
theorem find_of_plain {pattern : String} (hmagic : isMagic pattern ≠ true) :
    find t base pattern = .ok [pattern] ∨ find t base pattern = .ok [] := by
  rw [find, if_neg hmagic]
  dsimp only
  split <;> split <;> simp

variable {hidden : Bool} {tokens : List Token}

/-- Holds for the names in a directory that a pattern for names is after. -/
def Fits (hidden : Bool) (tokens : List Token) (name : String) : Prop :=
  (hidden = true ∨ isHidden name = false) ∧ covers tokens name.toList = true

/-- A pattern for names finds those that fit in a directory that can be listed. -/
theorem exists_select_wild (hidden : Bool) (tokens : List Token) (ht : t.Linkless) (h : t.Leads dir l) :
    ∃ found, select t false dir (.wild hidden tokens) = .ok found ∧ ∀ names, names ∈ found ↔
      ∃ name, names = [name] ∧ dir.utf8ByteSize ≤ pathLimit ∧ t.node? (l ++ [name]) ≠ none ∧
        Fits hidden tokens name := by
  obtain ⟨listed, hlisted, hmem⟩ := exists_namesIn false ht h
  refine ⟨_, bind_eq_ok.mpr ⟨listed, hlisted, rfl⟩, fun names => ?_⟩
  have hfits : ∀ name : String, ((hidden || !isHidden name) && covers tokens name.toList) = true ↔
      Fits hidden tokens name := by
    intro name
    simp [Fits]
  simp only [List.mem_map, List.mem_filter, hmem, hfits]
  constructor
  · rintro ⟨name, ⟨⟨hsize, hn, -⟩, hname⟩, rfl⟩
    exact ⟨name, rfl, hsize, hn, hname⟩
  · rintro ⟨name, rfl, hsize, hn, hname⟩
    exact ⟨name, ⟨⟨hsize, hn, by simp⟩, hname⟩, rfl⟩

/-- From a directory `**` finds it and the directories that a search goes into below it. -/
theorem mem_select_deep {found : List (List String)} (ht : t.Linkless) (h : t.Leads dir l)
    (hfound : select t true dir .deep = .ok found) : names ∈ found ↔ Entered t dir l names := by
  obtain ⟨below, hbelow, hfound⟩ := bind_eq_ok.mp hfound
  cases hfound
  rw [List.mem_cons, mem_under ht h hbelow]
  constructor
  · rintro (rfl | ⟨-, hentered⟩)
    · exact entered_nil h.node
    · exact hentered
  · intro hentered
    by_cases hnil : names = []
    · exact Or.inl hnil
    · exact Or.inr ⟨hnil, hentered⟩

/-- The directories that `**` finds can be searched on. -/
theorem Entered.leads (ht : t.Linkless) (h : t.Leads dir l) (hbelow : Entered t dir l below) :
    t.Leads (joinNames dir below) (l ++ below) :=
  h.below ht hbelow.node

/-- What is searched has been gone into. -/
theorem Searched.entered (ht : t.Linkless) (h : Searched t dir l below) : Entered t dir l below := by
  refine ⟨h.visible, h.node, fun hne => ?_⟩
  have hnames := h.entryNames ht
  have hlast : IsName (below.getLast hne) := hnames _ (List.getLast_mem hne)
  have hwhole : below.foldl joinText dir = joinText (below.dropLast.foldl joinText dir) (below.getLast hne) := by
    conv_lhs => rw [← List.dropLast_append_getLast hne]
    rw [List.foldl_append]
    rfl
  refine Nat.le_trans ?_ h.size_le
  rw [← foldl_joinText hnames hne, hwhole, ← joinNames_singleton]
  exact size_le_joinNames (List.forall_mem_singleton.mpr hlast)

/-- What is found from a text on is asked for under that text, seen from the base. -/
theorem seen_joinNames (hlead : lead ≠ "") (hnames : ∀ name ∈ names, IsName name) :
    seen base (joinNames lead names) = joinNames (seen base lead) names := by
  have hne : joinNames lead names ≠ "" := joinText_ne_empty hlead
  rw [seen, if_neg hne, seen, if_neg hlead, joinNames, joinNames,
    joinText_assoc hlead (head?_ofList_joinSlash hnames)]

section deep

variable (hlead : lead ≠ "") (ht : t.Linkless) (h : t.Leads (seen base lead) l)
include hlead ht h

/-- The first step of a search by `**` finds the directories that it goes into. -/
theorem mem_deeper {parts : List (List String)}
    (hparts : [lead].mapM (fun dir => (select t true (seen base dir) .deep).map (·.map (joinNames dir))) =
      .ok parts) :
    text ∈ parts.flatten.eraseDups ↔ ∃ below,
      Entered t (seen base lead) l below ∧ text = joinNames lead below := by
  have hdeep : ∀ dir ∈ [lead], ∀ part,
      (select t true (seen base dir) .deep).map (·.map (joinNames dir)) = .ok part →
      ∀ q, q ∈ part ↔ ∃ below, Entered t (seen base lead) l below ∧ q = joinNames lead below := by
    intro dir hdir part hpart q
    obtain rfl := List.mem_singleton.mp hdir
    obtain ⟨names, hnames, rfl⟩ := map_eq_ok.mp hpart
    simp only [List.mem_map, mem_select_deep ht h hnames, eq_comm]
  rw [List.mem_eraseDups, mem_flatten_of_mapM hparts hdeep]
  simp

/-- The second step finds the names that fit in each of them that can be listed. -/
theorem mem_fitting {part : List String} (hbelow : Entered t (seen base lead) l below)
    (hpart : (select t false (seen base (joinNames lead below)) (.wild hidden tokens)).map
      (·.map (joinNames (joinNames lead below))) = .ok part) :
    text ∈ part ↔ ∃ name, Searched t (seen base lead) l below ∧ t.node? (l ++ below ++ [name]) ≠ none ∧
      Fits hidden tokens name ∧ text = joinNames lead (below ++ [name]) := by
  have hnames := hbelow.entryNames ht
  have hwritten : ∀ name, t.node? (l ++ below ++ [name]) ≠ none →
      joinNames (joinNames lead below) [name] = joinNames lead (below ++ [name]) := fun name hn =>
    joinNames_joinNames hnames (List.forall_mem_singleton.mpr (ht.entryName hn).toIsName)
      (List.cons_ne_nil name [])
  rw [seen_joinNames hlead hnames] at hpart
  obtain ⟨found, hfound, rfl⟩ := map_eq_ok.mp hpart
  obtain ⟨fitting, hfitting, hmem⟩ := exists_select_wild hidden tokens ht (hbelow.leads ht h)
  obtain rfl := Except.ok.inj (hfound.symm.trans hfitting)
  simp only [List.mem_map, hmem]
  constructor
  · rintro ⟨_, ⟨name, rfl, hsize, hn, hname⟩, rfl⟩
    exact ⟨name, ⟨hbelow.visible, hbelow.node, hsize⟩, hn, hname, hwritten name hn⟩
  · rintro ⟨name, hsearched, hn, hname, rfl⟩
    exact ⟨[name], ⟨name, rfl, hsearched.size_le, hn, hname⟩, hwritten name hn⟩

/-- In a directory and below it a pattern for names finds those that fit. -/
theorem mem_selectAll_deep {found : List String}
    (hfound : selectAll t base [.deep, .wild hidden tokens] [lead] = .ok found) :
    text ∈ found ↔ ∃ below name, Searched t (seen base lead) l below ∧
      t.node? (l ++ below ++ [name]) ≠ none ∧ Fits hidden tokens name ∧
      text = joinNames lead (below ++ [name]) := by
  obtain ⟨parts, hparts, hfound⟩ := selectAll_cons_eq_ok.mp hfound
  obtain ⟨deeper, hdeeper, hfound⟩ := selectAll_cons_eq_ok.mp hfound
  cases hfound
  have hwild : ∀ q ∈ parts.flatten.eraseDups, ∀ part,
      (select t false (seen base q) (.wild hidden tokens)).map (·.map (joinNames q)) = .ok part →
      ∀ text, text ∈ part ↔ ∃ below name, q = joinNames lead below ∧ Searched t (seen base lead) l below ∧
        t.node? (l ++ below ++ [name]) ≠ none ∧ Fits hidden tokens name ∧
        text = joinNames lead (below ++ [name]) := by
    intro q hq part hpart text
    obtain ⟨below, hbelow, rfl⟩ := (mem_deeper hlead ht h hparts).mp hq
    rw [mem_fitting hlead ht h hbelow hpart]
    constructor
    · rintro ⟨name, hname⟩
      exact ⟨below, name, rfl, hname⟩
    · rintro ⟨below', name, hsame, hsearched, hname⟩
      -- No two ways down make the same text, so the text tells which directory it is.
      have hnames := congrArg (fun text => namesOf text.toList) hsame
      rw [namesOf_joinNames (hbelow.entryNames ht), namesOf_joinNames (hsearched.entryNames ht)] at hnames
      obtain rfl : below = below' := List.append_cancel_left hnames
      exact ⟨name, hsearched, hname⟩
  show text ∈ deeper.flatten.eraseDups ↔ _
  rw [List.mem_eraseDups, mem_flatten_of_mapM hdeeper hwild]
  constructor
  · rintro ⟨q, -, below, name, -, hfound⟩
    exact ⟨below, name, hfound⟩
  · rintro ⟨below, name, hsearched, hrest⟩
    have hdir := (mem_deeper hlead ht h hparts).mpr ⟨below, hsearched.entered ht, rfl⟩
    exact ⟨joinNames lead below, hdir, below, name, rfl, hsearched, hrest⟩

/-- The search of a directory and all below it ends if the directories that it goes into do not lie too
deep in each other. -/
theorem exists_selectAll_deep (hidden : Bool) (tokens : List Token)
    (hshallow : ∀ names, Entered t (seen base lead) l names → names.length < nestingLimit) :
    ∃ found, selectAll t base [.deep, .wild hidden tokens] [lead] = .ok found := by
  obtain ⟨below, hbelow⟩ := exists_under ht h (by decide) hshallow
  obtain ⟨found, hselect⟩ : ∃ found, select t true (seen base lead) .deep = .ok found :=
    ⟨_, bind_eq_ok.mpr ⟨below, hbelow, rfl⟩⟩
  have hdeep : [lead].mapM (fun dir => (select t true (seen base dir) .deep).map (·.map (joinNames dir))) =
      .ok [found.map (joinNames lead)] := by
    rw [mapM_eq_ok]
    exact .cons (map_eq_ok.mpr ⟨_, hselect, rfl⟩) .nil
  have hwild : ∀ q ∈ [found.map (joinNames lead)].flatten.eraseDups, ∃ part,
      (select t false (seen base q) (.wild hidden tokens)).map (·.map (joinNames q)) = .ok part := by
    intro q hq
    obtain ⟨names, hnames, rfl⟩ := (mem_deeper hlead ht h hdeep).mp hq
    obtain ⟨fitting, hfitting, -⟩ := exists_select_wild hidden tokens ht (hnames.leads ht h)
    rw [seen_joinNames hlead (hnames.entryNames ht)]
    exact ⟨_, map_eq_ok.mpr ⟨fitting, hfitting, rfl⟩⟩
  obtain ⟨parts, hparts⟩ := exists_mapM hwild
  exact ⟨_, selectAll_cons_eq_ok.mpr ⟨_, hdeep, selectAll_cons_eq_ok.mpr ⟨parts, hparts, rfl⟩⟩⟩

end deep

end LintDebt.Glob
