import LintDebt.Proofs.Blanket

/-! # The files that are suppressed as a whole

Such a file begins, below any number of lines of white space, with a line that has a bare disable
comment and white space around its parts (`Disabled`). The reader cuts lines, trims them and looks for
the comment in the first that is left; that it finds exactly these files is shown for one line first
(`isBlanket_trim_iff`), and then line by line, since a line end of any kind parts the search
(`topLine?_ended`). -/

namespace LintDebt.Blanket

open Text

variable {s line head tail rest e : List Char}

/-- Holds for white space that ends no line. -/
def Spaced (s : List Char) : Prop := ∀ c ∈ s, isBlank c = true ∧ c ≠ '\n' ∧ c ≠ '\r'

/-- The ways to end a line. -/
def lineEnds : List (List Char) := ["\n".toList, "\r\n".toList, "\r".toList]

/-- Holds for what can stand behind a line: nothing, or a line end and then anything. -/
def Closes (tail : List Char) : Prop := tail = [] ∨ ∃ e ∈ lineEnds, ∃ rest, tail = e ++ rest

/-- A line with nothing but a bare disable comment, with white space around its parts. -/
inductive Bare : List Char → Prop
  | line {before afterOpen beforeClose behind : List Char} (hbefore : Spaced before)
      (hopen : Spaced afterOpen) (hclose : Spaced beforeClose) (hbehind : Spaced behind) :
      Bare (before ++ ("/*".toList ++ (afterOpen ++ ("stylelint-disable".toList ++
        (beforeClose ++ "*/".toList))) ++ behind))

/-- A text with such a line, above it only lines of white space. -/
inductive Disabled : List Char → Prop
  | top {line tail : List Char} (hline : Bare line) (htail : Closes tail) : Disabled (line ++ tail)
  | under {line e rest : List Char} (hline : Spaced line) (hend : e ∈ lineEnds) (h : Disabled rest) :
      Disabled (line ++ (e ++ rest))

instance : Decidable (Spaced s) :=
  List.decidableBAll (fun c => isBlank c = true ∧ c ≠ '\n' ∧ c ≠ '\r') s

theorem spaced_iff : Spaced s ↔ (∀ c ∈ s, isBlank c = true) ∧ Whole s := by
  constructor
  · intro h
    exact ⟨fun c hc => (h c hc).1, fun hfeed => (h _ hfeed).2.1 rfl, fun hreturn => (h _ hreturn).2.2 rfl⟩
  · rintro ⟨hblank, hfeed, hreturn⟩ c hc
    exact ⟨hblank c hc, ne_of_mem_of_not_mem hc hfeed, ne_of_mem_of_not_mem hc hreturn⟩

theorem whole_nil : Whole [] := ⟨List.not_mem_nil, List.not_mem_nil⟩

theorem whole_append {a b : List Char} : Whole (a ++ b) ↔ Whole a ∧ Whole b := by
  simp only [Whole, List.mem_append, not_or]
  tauto

/-- A text is one line, or has a line with a line end. -/
theorem whole_or_ended (s : List Char) :
    Whole s ∨ ∃ line e rest, Whole line ∧ e ∈ lineEnds ∧ s = line ++ (e ++ rest) := by
  induction s with
  | nil => exact Or.inl whole_nil
  | cons c s ih =>
    by_cases hfeed : c = '\n'
    · subst hfeed
      exact Or.inr ⟨[], "\n".toList, s, by decide, by decide, rfl⟩
    by_cases hreturn : c = '\r'
    · subst hreturn
      exact Or.inr ⟨[], "\r".toList, s, by decide, by decide, rfl⟩
    have hc : ¬ (c = '\n' ∨ c = '\r') := not_or.mpr ⟨hfeed, hreturn⟩
    rcases ih with h | ⟨line, e, rest, hline, he, rfl⟩
    · exact Or.inl (whole_cons.mpr ⟨hc, h⟩)
    · exact Or.inr ⟨c :: line, e, rest, whole_cons.mpr ⟨hc, hline⟩, he, rfl⟩

/-- What holds of one line, and of a text below a line that ends, holds of every text. -/
@[elab_as_elim]
theorem line_induction {motive : List Char → Prop} (whole : ∀ line, Whole line → motive line)
    (ended : ∀ line e rest, Whole line → e ∈ lineEnds → motive rest → motive (line ++ (e ++ rest)))
    (s : List Char) : motive s := by
  have hends : ∀ e ∈ lineEnds, 0 < e.length := by decide
  generalize hn : s.length = n
  induction n using Nat.strongRecOn generalizing s with
  | ind n ih =>
    rcases whole_or_ended s with hs | ⟨line, e, rest, hline, he, rfl⟩
    · exact whole s hs
    · have hshorter : rest.length < n := by
        have hlength := hends e he
        rw [← hn, List.length_append, List.length_append]
        omega
      exact ended line e rest hline he (ih _ hshorter rest rfl)

/-! ### One line -/

/-- The shape of a trimmed line that disables every rule. -/
theorem isBlanket_iff : isBlanket s = true ↔ ∃ afterOpen beforeClose,
    (∀ c ∈ afterOpen, isBlank c = true) ∧ (∀ c ∈ beforeClose, isBlank c = true) ∧
    s = "/*".toList ++ (afterOpen ++ ("stylelint-disable".toList ++ (beforeClose ++ "*/".toList))) := by
  have hcloses : ∀ c ∈ "*/".toList.head?, isBlank c = false := by
    intro c hc
    cases hc
    decide
  have hnames : ∀ rest : List Char,
      ∀ c ∈ ("stylelint-disable".toList ++ rest).head?, isBlank c = false := by
    intro rest c hc
    cases hc
    decide
  rw [isBlanket]
  constructor
  · intro h
    split at h
    · cases h
    next inner hopen =>
    split at h
    · cases h
    next last hword =>
    rw [List.isPrefixOf?_eq_some_iff_append_eq] at hopen hword
    rw [decide_eq_true_eq] at h
    obtain ⟨afterOpen, hafter, hinner⟩ := (dropWhile_eq_iff (hnames last)).mp hword.symm
    obtain ⟨beforeClose, hbefore, hlast⟩ := (dropWhile_eq_iff hcloses).mp h
    refine ⟨afterOpen, beforeClose, hafter, hbefore, ?_⟩
    rw [← hlast, ← hinner, hopen]
  · rintro ⟨afterOpen, beforeClose, hafter, hbefore, rfl⟩
    have hopen : ∀ inner, "/*".toList.isPrefixOf? ("/*".toList ++ inner) = some inner :=
      fun inner => List.isPrefixOf?_eq_some_iff_append_eq.mpr rfl
    have hword : ∀ last,
        "stylelint-disable".toList.isPrefixOf? ("stylelint-disable".toList ++ last) = some last :=
      fun last => List.isPrefixOf?_eq_some_iff_append_eq.mpr rfl
    have hinner := (dropWhile_eq_iff (hnames (beforeClose ++ "*/".toList))).mpr ⟨afterOpen, hafter, rfl⟩
    have hlast := (dropWhile_eq_iff hcloses).mpr ⟨beforeClose, hbefore, rfl⟩
    simp only [hopen, hinner, hword, hlast, decide_true]

/-- A comment has no blanks at its ends. -/
theorem trim_closed (inner : List Char) :
    trim ("/*".toList ++ (inner ++ "*/".toList)) = "/*".toList ++ (inner ++ "*/".toList) := by
  have hclose : trimEnd "*/".toList = "*/".toList := by decide
  have hfront : ("/*".toList ++ (inner ++ "*/".toList)).dropWhile isBlank =
      "/*".toList ++ (inner ++ "*/".toList) := rfl
  rw [trim, hfront, ← List.append_assoc, trimEnd_append, hclose, if_neg (by decide)]

theorem isBlanket_trim_iff (h : Whole line) : isBlanket (trim line) = true ↔ Bare line := by
  constructor
  · intro hblanket
    obtain ⟨afterOpen, beforeClose, hafter, hclose, htrim⟩ := isBlanket_iff.mp hblanket
    obtain ⟨before, behind, hbefore, hbehind, hline⟩ := exists_blanks_trim line
    rw [htrim] at hline
    rw [hline] at h ⊢
    simp only [whole_append] at h
    obtain ⟨hwbefore, ⟨-, hwafter, -, hwclose, -⟩, hwbehind⟩ := h
    exact .line (spaced_iff.mpr ⟨hbefore, hwbefore⟩) (spaced_iff.mpr ⟨hafter, hwafter⟩)
      (spaced_iff.mpr ⟨hclose, hwclose⟩) (spaced_iff.mpr ⟨hbehind, hwbehind⟩)
  · rintro @⟨before, afterOpen, beforeClose, behind, hbefore, hafter, hclose, hbehind⟩
    have hcomment := trim_closed (afterOpen ++ ("stylelint-disable".toList ++ beforeClose))
    simp only [List.append_assoc] at hcomment
    rw [trim_blanks_append (spaced_iff.mp hbefore).1 (spaced_iff.mp hbehind).1, hcomment, isBlanket_iff]
    exact ⟨afterOpen, beforeClose, (spaced_iff.mp hafter).1, (spaced_iff.mp hclose).1, rfl⟩

theorem Bare.whole (h : Bare line) : Whole line := by
  obtain @⟨before, afterOpen, beforeClose, behind, hbefore, hafter, hclose, hbehind⟩ := h
  simp only [whole_append]
  exact ⟨(spaced_iff.mp hbefore).2, ⟨by decide, (spaced_iff.mp hafter).2, by decide,
    (spaced_iff.mp hclose).2, by decide⟩, (spaced_iff.mp hbehind).2⟩

theorem Bare.trim_ne_nil (h : Bare line) : trim line ≠ [] := by
  intro hnil
  have hblanket := (isBlanket_trim_iff h.whole).mpr h
  rw [hnil] at hblanket
  revert hblanket
  decide

/-! ### Line by line -/

/-- The first line of a text that is not blank. -/
def topLine? (s : List Char) : Option (List Char) := firstLine? (pieces (Text.normalize s))

theorem topLine?_whole (h : Whole line) :
    topLine? line = if trim line = [] then none else some (trim line) := by
  have hnormal := normalize_append_of_whole h []
  rw [List.append_nil] at hnormal
  rw [topLine?, hnormal, Text.normalize, List.append_nil, pieces, List.splitOn_eq_singleton h.1,
    firstLine?_cons]
  rfl

theorem topLine?_append_lineFeed (h : Whole line) (rest : List Char) :
    topLine? (line ++ '\n' :: rest) = if trim line = [] then topLine? rest else some (trim line) := by
  rw [topLine?, pieces_append_lineFeed h, firstLine?_cons]
  rfl

theorem topLine?_lineFeed (rest : List Char) : topLine? ('\n' :: rest) = topLine? rest :=
  topLine?_append_lineFeed whole_nil rest

/-- A line end of any kind ends a line. -/
theorem topLine?_ended (hline : Whole line) (he : e ∈ lineEnds) (rest : List Char) :
    topLine? (line ++ (e ++ rest)) = if trim line = [] then topLine? rest else some (trim line) := by
  have hfeed : ∀ t rest, Text.normalize t = '\n' :: Text.normalize rest →
      topLine? (line ++ t) = if trim line = [] then topLine? rest else some (trim line) := by
    intro t rest h
    rw [← topLine?_append_lineFeed hline, topLine?, topLine?, normalize_append_of_whole hline,
      normalize_append_lineFeed hline, h]
  simp only [lineEnds, List.mem_cons, List.not_mem_nil, or_false] at he
  rcases he with rfl | rfl | rfl
  · exact topLine?_append_lineFeed hline rest
  · exact hfeed _ rest (by simp [Text.normalize])
  · -- A CR before an LF ends the line together with it, and what is left has one empty line less.
    show topLine? (line ++ '\r' :: rest) = _
    by_cases hrest : ∃ rest', rest = '\n' :: rest'
    · obtain ⟨rest', rfl⟩ := hrest
      rw [topLine?_lineFeed]
      exact hfeed _ rest' (by simp [Text.normalize])
    · apply hfeed _ rest
      rw [Text.normalize, if_pos rfl]
      exact fun rest' _ hfeed => hrest ⟨rest', hfeed⟩

/-- Behind a blank text the search goes on, if the last line of that text is closed. -/
theorem topLine?_append (htail : Closes tail) (head : List Char) :
    topLine? (head ++ tail) = (topLine? head).or (topLine? tail) := by
  induction head using line_induction with
  | whole line hline =>
    rcases htail with rfl | ⟨e, he, rest, rfl⟩
    · rw [List.append_nil]
      exact Option.or_none.symm
    · have hrest : topLine? (e ++ rest) = topLine? rest :=
        topLine?_ended whole_nil he rest
      rw [topLine?_ended hline he, topLine?_whole hline, hrest]
      split <;> rfl
  | ended line e rest hline he ih =>
    have hassoc : line ++ (e ++ rest) ++ tail = line ++ (e ++ (rest ++ tail)) := by
      rw [List.append_assoc, List.append_assoc]
    rw [hassoc, topLine?_ended hline he, topLine?_ended hline he, ih]
    split <;> rfl

/-- A text that is not blank has a line that is not blank. -/
theorem exists_topLine (h : ∃ c ∈ head, isBlank c = false) : ∃ line, topLine? head = some line := by
  have hends : ∀ e ∈ lineEnds, e.all isBlank = true := by decide
  induction head using line_induction with
  | whole line hline =>
    obtain ⟨c, hc, hblank⟩ := h
    rw [topLine?_whole hline, if_neg (List.ne_nil_of_mem (mem_trim hc hblank))]
    exact ⟨_, rfl⟩
  | ended line e rest hline he ih =>
    rw [topLine?_ended hline he]
    split
    · next hnil =>
      obtain ⟨c, hc, hblank⟩ := h
      apply ih
      refine ⟨c, ?_, hblank⟩
      rcases List.mem_append.mp hc with hc | hc
      · exact absurd hnil (List.ne_nil_of_mem (mem_trim hc hblank))
      · apply (List.mem_append.mp hc).resolve_left
        intro hc
        rw [List.all_eq_true.mp (hends e he) c hc] at hblank
        cases hblank
    · exact ⟨_, rfl⟩

/-- The first line that is not blank disables every rule exactly in a text of this shape. -/
theorem topLine?_any_iff : (topLine? s).any isBlanket = true ↔ Disabled s := by
  constructor
  · intro h
    induction s using line_induction with
    | whole line hline =>
      rw [topLine?_whole hline] at h
      split at h
      · cases h
      · rw [← List.append_nil line]
        exact .top ((isBlanket_trim_iff hline).mp h) (Or.inl rfl)
    | ended line e rest hline he ih =>
      rw [topLine?_ended hline he] at h
      split at h
      · next hnil => exact .under (spaced_iff.mpr ⟨trim_eq_nil.mp hnil, hline⟩) he (ih h)
      · exact .top ((isBlanket_trim_iff hline).mp h) (Or.inr ⟨e, he, rest, rfl⟩)
  · intro h
    induction h with
    | top hline htail =>
      rw [topLine?_append htail, topLine?_whole hline.whole, if_neg hline.trim_ne_nil]
      exact (isBlanket_trim_iff hline.whole).mpr hline
    | under hline he h ih =>
      obtain ⟨hblank, hwhole⟩ := spaced_iff.mp hline
      rwa [topLine?_ended hwhole he, if_pos (trim_eq_nil.mpr hblank)]

/-! ### The answer -/

theorem covers_eq {t : FileTree} {p : Path} {text : List Char}
    (h : t.read p.text = .ok (Utf8.encode text)) :
    covers t p = .ok ((topLine? (unmarked text)).any isBlanket) :=
  covers_of_encoded h

/-- A file with a text is suppressed as a whole exactly if the text has this shape. So the answer is
the same for every file whose text has the same lines, however they end and with or without a mark, and
for every file whose text goes on in another way below a line that is not blank. -/
theorem covers_iff_disabled (t : FileTree) (p : Path) (text : List Char)
    (h : t.read p.text = .ok (Utf8.encode text)) :
    (∃ b, covers t p = .ok b ∧ (b = true ↔ Disabled (unmarked text))) ∧
    (∀ (t' : FileTree) (p' : Path) (text' : List Char), t'.read p'.text = .ok (Utf8.encode text') →
      Text.normalize (unmarked text') = Text.normalize (unmarked text) → covers t' p' = covers t p) ∧
    ∀ (t' : FileTree) (p' : Path) (text' head tail tail' : List Char),
      t'.read p'.text = .ok (Utf8.encode text') → (∃ c ∈ head, isBlank c = false) →
      Closes tail → Closes tail' → unmarked text = head ++ tail → unmarked text' = head ++ tail' →
      covers t' p' = covers t p := by
  refine ⟨⟨_, covers_eq h, topLine?_any_iff⟩, ?_, ?_⟩
  · intro t' p' text' h' hsame
    rw [covers_eq h, covers_eq h', topLine?, topLine?, hsame]
  · intro t' p' text' head tail tail' h' hhead htail htail' htext htext'
    obtain ⟨line, hline⟩ := exists_topLine hhead
    rw [covers_eq h, covers_eq h', htext, htext', topLine?_append htail, topLine?_append htail', hline]
    rfl

/-- The top of a stylesheet that begins with the comment below blank lines. -/
def commentedTop : List Char := " \t\r\n\u2003\r/*\u00a0stylelint-disable*/ ".toList

/-- Stylesheets with this top, one with a mark, one with other line ends and one that ends there; and
one with a comment that names a rule. -/
def commented : FileTree where
  nodes := Std.ExtTreeMap.ofList [
    (["a.css"], Node.file (Utf8.encode ('\ufeff' :: commentedTop ++ "\rp".toList))),
    (["b.css"], Node.file (Utf8.encode (Text.normalize (commentedTop ++ "\rp".toList)))),
    (["c.css"], Node.file (Utf8.encode commentedTop)),
    (["d.css"], Node.file (Utf8.encode "/* stylelint-disable color-no-hex */\n".toList))]
  here := []

theorem covers_commented :
    covers commented (Path.parse "a.css") = .ok true ∧
    covers commented (Path.parse "b.css") = .ok true ∧
    covers commented (Path.parse "c.css") = .ok true ∧
    ¬ Disabled "/* stylelint-disable color-no-hex */\n".toList := by
  have hread : commented.read (Path.parse "a.css").text =
      .ok (Utf8.encode ('\ufeff' :: commentedTop ++ "\rp".toList)) := by decide +kernel
  have hbare : Bare "/*\u00a0stylelint-disable*/ ".toList :=
    (isBlanket_trim_iff (by decide +kernel)).mp (by decide +kernel)
  have hdisabled : Disabled (commentedTop ++ "\rp".toList) := by
    have htext : commentedTop ++ "\rp".toList = [' ', '\t'] ++ (['\r', '\n'] ++ (['\u2003'] ++
        (['\r'] ++ ("/*\u00a0stylelint-disable*/ ".toList ++ (['\r'] ++ ['p']))))) := by decide +kernel
    rw [htext]
    apply Disabled.under (by decide +kernel) (by decide)
    apply Disabled.under (by decide +kernel) (by decide)
    exact .top hbare (Or.inr ⟨['\r'], by decide, ['p'], rfl⟩)
  obtain ⟨⟨b, hcovers, hb⟩, hlines, hrest⟩ := covers_iff_disabled commented (Path.parse "a.css") _ hread
  have ha : covers commented (Path.parse "a.css") = .ok true := by
    rw [hcovers, hb.mpr hdisabled]
  have hreadOther : commented.read (Path.parse "d.css").text =
      .ok (Utf8.encode "/* stylelint-disable color-no-hex */\n".toList) := by decide +kernel
  obtain ⟨⟨b', hcovers', hb'⟩, -⟩ := covers_iff_disabled commented (Path.parse "d.css") _ hreadOther
  refine ⟨ha, ?_, ?_, ?_⟩
  · rw [← ha]
    exact hlines commented (Path.parse "b.css") (Text.normalize (commentedTop ++ "\rp".toList))
      (by decide +kernel) (by decide +kernel)
  · rw [← ha]
    exact hrest commented (Path.parse "c.css") commentedTop commentedTop "\rp".toList [] (by decide +kernel)
      ⟨'/', by decide +kernel, by decide⟩ (Or.inr ⟨"\r".toList, by decide, ['p'], rfl⟩) (Or.inl rfl)
      (by decide +kernel) (by decide +kernel)
  · have hnot : covers commented (Path.parse "d.css") = .ok false := by decide +kernel
    rw [hnot] at hcovers'
    cases hcovers'
    exact fun h => Bool.false_ne_true (hb'.mpr h)

end LintDebt.Blanket
