import LintDebt.Proofs.Distinct
import LintDebt.Proofs.Glob.Shapes
import LintDebt.Proofs.IgnoreList
import LintDebt.Proofs.Text.Lines
import LintDebt.Proofs.Workflow.Sample

/-! # Lists that are written and read back

The patterns of a list stand in the order in which they first came among its lines
(`patterns_of_read`). So some of them, written out one a line or by leaving the others out of the
earlier lines, are read back in their order, and each finds the files that it found before: a search
does not look into files, and nothing but the content of the list has changed. -/

namespace LintDebt

open FileTree Text

namespace TextFile

variable {t : FileTree} {p : Path} {lines : List String}

/-- No line of a file holds a line end. -/
theorem whole_of_lines (h : TextFile.lines t p = .ok lines) : ∀ line ∈ lines, Whole line.toList := by
  rw [TextFile.lines] at h
  obtain ⟨stream, hstream, h⟩ := bind_eq_ok.mp h
  obtain ⟨_, -, h⟩ := bind_eq_ok.mp h
  obtain ⟨octets, -, hstream⟩ := bind_eq_ok.mp hstream
  cases h
  cases hstream
  intro line hline
  obtain ⟨chars, hchars, rfl⟩ := List.mem_map.mp hline
  rw [String.toList_ofList]
  exact whole_of_mem_stream hchars

/-- Lines that were written out are read. -/
theorem lines_of_rendered (h : t.read p.text = .ok (Utf8.encode (IgnoreList.renderLines lines)))
    (hwhole : ∀ line ∈ lines, Whole line.toList)
    (hmark : ∀ line ∈ lines, line.toList.head? ≠ some '\ufeff') :
    TextFile.lines t p = .ok lines := by
  have hback : (lines.map String.toList).map String.ofList = lines := by simp
  rw [TextFile.lines, stream_of_read h, stream_renderLines hwhole hmark]
  exact congrArg Except.ok hback

end TextFile

namespace IgnoreList

variable {t t' : FileTree} {p base : Path} {rule : PatternRule} {m m' kept : IgnoreList}
  {lines : List String} {line : String}

/-- Holds for a line whose pattern finds a file. -/
def findsFile (t : FileTree) (base : Path) (rule : PatternRule) (line : String) : Bool :=
  !isRemark line &&
    match Glob.resolvePattern t base (rule.expand line) with
    | .ok files => !files.isEmpty
    | .error _ => false

theorem findsFile_iff : findsFile t base rule line = true ↔ ∃ files, Finds t base rule ⟨line, files⟩ := by
  rw [findsFile, Bool.and_eq_true, Bool.not_eq_true']
  constructor
  · rintro ⟨hremark, hfinds⟩
    split at hfinds
    · next files hfiles => exact ⟨files, hremark, hfiles, by simpa using hfinds⟩
    · cases hfinds
  · rintro ⟨files, hremark, hfiles, hne⟩
    refine ⟨hremark, ?_⟩
    rw [show Glob.resolvePattern t base (rule.expand line) = .ok files from hfiles]
    simpa using hne

/-- Lines add their patterns behind those that are there. -/
theorem patterns_readLines (h : (readLines t base rule m lines).result = .ok m')
    (hm : (m.map Entry.pattern).Nodup) : m'.map Entry.pattern =
      (m.map Entry.pattern ++ lines.filter (findsFile t base rule)).eraseDups := by
  induction lines generalizing m with
  | nil =>
    cases h
    rw [List.filter_nil, List.append_nil, eraseDups_of_nodup hm]
  | cons line rest ih =>
    rw [readLines] at h
    obtain ⟨m₁, hline, h⟩ := Traced.result_bind_eq_ok.mp h
    rcases result_readLine hline with ⟨hm₁, hno⟩ | ⟨files, hfinds, rfl⟩
    · rw [hm₁] at h
      have hnot : ¬ findsFile t base rule line = true := fun hyes => by
        obtain ⟨files, hfinds⟩ := findsFile_iff.mp hyes
        exact hno files hfinds
      rw [ih h hm, List.filter_cons_of_neg hnot]
    · rw [ih h (nodup_put hm), patterns_put,
        List.filter_cons_of_pos (findsFile_iff.mpr ⟨files, hfinds⟩)]
      by_cases hold : line ∈ m.map Entry.pattern
      · -- The pattern is there already, so that it is left out as a repetition.
        rw [if_pos hold, List.eraseDups_append, List.eraseDups_append]
        congr 2
        rw [List.removeAll, List.removeAll, List.filter_cons_of_neg (by simpa using hold)]
      · rw [if_neg hold, List.append_assoc, List.singleton_append]

/-- The patterns of a list that was read are the lines that find a file, each where it first came. -/
theorem patterns_of_read (h : (read t p base rule).result = .ok m)
    (hlines : TextFile.lines t p = .ok lines) :
    m.map Entry.pattern = (lines.filter (findsFile t base rule)).eraseDups :=
  patterns_readLines (readLines_of_read h hlines) List.nodup_nil

/-- Holds for some patterns of a list in its order, each with a file. -/
structure Part (kept m : IgnoreList) : Prop where
  patterns : (kept.map Entry.pattern).Sublist (m.map Entry.pattern)
  files : ∀ e ∈ kept, e.files ≠ []

instance : Decidable (Part kept m) :=
  decidable_of_iff ((kept.map Entry.pattern).Sublist (m.map Entry.pattern) ∧ ∀ e ∈ kept, e.files ≠ [])
    ⟨fun ⟨hpatterns, hfiles⟩ => ⟨hpatterns, hfiles⟩, fun h => ⟨h.patterns, h.files⟩⟩

theorem Part.render_eq (h : Part kept m) : kept.render = renderLines (kept.map Entry.pattern) := by
  rw [render, List.filter_eq_self.mpr fun e he => by simpa using h.files e he]

theorem Part.keeps_iff (h : Part kept m) : kept.keeps line = true ↔ line ∈ kept.map Entry.pattern := by
  rw [IgnoreList.keeps_iff, List.mem_map]
  constructor
  · rintro ⟨e, he, hpattern, -⟩
    exact ⟨e, he, hpattern⟩
  · rintro ⟨e, he, hpattern⟩
    exact ⟨e, he, hpattern, h.files e he⟩

theorem Part.nodup (h : Part kept m) (hm : (m.map Entry.pattern).Nodup) :
    (kept.map Entry.pattern).Nodup :=
  hm.sublist h.patterns

theorem Finds.of_sameShape {e : Entry} (h : SameShape t t') (he : Finds t' base rule e) :
    Finds t base rule e :=
  ⟨he.noRemark, (h.resolvePattern _ _).trans he.files, he.nonempty⟩

theorem findsFile_congr (h : SameShape t t') : findsFile t' base rule = findsFile t base rule := by
  funext line
  rw [findsFile, findsFile, h.resolvePattern]

/-- Lines among those of a list that was read make a list as well, with the files found before. -/
theorem exists_read_among {written : List String} (hshape : SameShape t t')
    (hm : (read t p base rule).result = .ok m) (hlines : TextFile.lines t p = .ok lines)
    (hwritten : TextFile.lines t' p = .ok written) (hsub : ∀ line ∈ written, line ∈ lines) :
    ∃ m', (read t' p base rule).result = .ok m' ∧
      m'.map Entry.pattern = (written.filter (findsFile t base rule)).eraseDups ∧ ∀ e ∈ m', e ∈ m := by
  have hreadLines := readLines_of_read hm hlines
  have hresolves : ∀ line ∈ written, isRemark line = false →
      ∃ files, Glob.resolvePattern t' base (rule.expand line) = .ok files := by
    intro line hline hremark
    rw [← hshape.resolvePattern]
    exact resolves_of_readLines hreadLines line (hsub line hline) hremark
  obtain ⟨m', hm', hmem'⟩ := exists_read hwritten hresolves
  obtain ⟨-, hmem⟩ := result_readLines hreadLines (by simp) List.nodup_nil
  refine ⟨m', hm', ?_, ?_⟩
  · rw [patterns_of_read hm' hwritten, findsFile_congr hshape]
  · intro e he
    obtain ⟨hline, hfinds⟩ := (hmem' e).mp he
    apply (hmem e).mpr
    exact Or.inr ⟨hsub _ hline, hfinds.of_sameShape hshape⟩

/-- Lines among those of a list that was read are read back, if they are written in its place. -/
theorem exists_readBack {written : List String} (hm : (read t p base rule).result = .ok m)
    (hlines : TextFile.lines t p = .ok lines)
    (hmark : ∀ line ∈ lines, line.toList.head? ≠ some '\ufeff')
    (hsub : ∀ line ∈ written, line ∈ lines) :
    ∃ t', TextFile.write t p (renderLines written) = .ok t' ∧
      ∃ m', (read t' p base rule).result = .ok m' ∧
        m'.map Entry.pattern = (written.filter (findsFile t base rule)).eraseDups ∧
        ∀ e ∈ m', e ∈ m := by
  obtain ⟨octets, hread⟩ := TextFile.read_of_lines hlines
  obtain ⟨l, hl, hn, -, hput⟩ := write_of_read hread (Utf8.encode (renderLines written))
  have hwritten : TextFile.lines (t.put l (.file (Utf8.encode (renderLines written)))) p =
      .ok written := by
    apply TextFile.lines_of_rendered (read_of_write hput)
    · exact fun line hline => TextFile.whole_of_lines hlines line (hsub line hline)
    · exact fun line hline => hmark line (hsub line hline)
  exact ⟨_, TextFile.write_eq_ok.mpr hput,
    exists_read_among (SameShape.put hl hn _) hm hlines hwritten hsub⟩

/-- Some patterns of a list that was read, written out one a line or by leaving the others out of its
lines, are read back in their order, and find what they found in the list. -/
theorem read_back (t : FileTree) (p base : Path) (rule : PatternRule) (m kept : IgnoreList)
    (lines : List String) (hm : (read t p base rule).result = .ok m)
    (hlines : TextFile.lines t p = .ok lines)
    (hmark : ∀ line ∈ lines, line.toList.head? ≠ some '\ufeff') (hkept : Part kept m) :
    ∀ text ∈ [kept.render, kept.renderOver lines], ∃ t', TextFile.write t p text = .ok t' ∧
      ∃ m', (read t' p base rule).result = .ok m' ∧ m'.map Entry.pattern = kept.map Entry.pattern ∧
        ∀ e ∈ m', e ∈ m := by
  have hpatterns := patterns_of_read hm hlines
  have hnodup : (m.map Entry.pattern).Nodup := hpatterns ▸ nodup_eraseDups _
  have hfound : ∀ line ∈ kept.map Entry.pattern, line ∈ lines ∧ findsFile t base rule line = true := by
    intro line hline
    have hmem := hkept.patterns.subset hline
    rw [hpatterns, List.mem_eraseDups, List.mem_filter] at hmem
    exact hmem
  have hrendered : ((kept.map Entry.pattern).filter (findsFile t base rule)).eraseDups =
      kept.map Entry.pattern := by
    rw [List.filter_eq_self.mpr fun line hline => (hfound line hline).2,
      eraseDups_of_nodup (hkept.nodup hnodup)]
  have hfiltered : ((lines.filter fun line => isRemark line || kept.keeps line).filter
      (findsFile t base rule)).eraseDups = kept.map Entry.pattern := by
    have hsame : (lines.filter fun line => isRemark line || kept.keeps line).filter
        (findsFile t base rule) =
        (lines.filter (findsFile t base rule)).filter (· ∈ kept.map Entry.pattern) := by
      rw [List.filter_filter, List.filter_filter]
      apply List.filter_congr
      intro line hline
      rw [Bool.eq_iff_iff]
      simp only [Bool.and_eq_true, Bool.or_eq_true, hkept.keeps_iff, decide_eq_true_eq]
      constructor
      · rintro ⟨hfinds, hremark | hin⟩
        · rw [findsFile, hremark] at hfinds
          cases hfinds
        · exact ⟨hin, hfinds⟩
      · exact fun ⟨hin, hfinds⟩ => ⟨hfinds, Or.inr hin⟩
    rw [hsame, ← filter_eraseDups, ← hpatterns, filter_mem_of_sublist hkept.patterns hnodup]
  intro text htext
  rcases List.mem_cons.mp htext with rfl | htext
  · rw [hkept.render_eq]
    obtain ⟨t', hwrite, m', hm', hsame, hmem⟩ :=
      exists_readBack hm hlines hmark fun line hline => (hfound line hline).1
    exact ⟨t', hwrite, m', hm', hsame.trans hrendered, hmem⟩
  · obtain rfl := List.mem_singleton.mp htext
    obtain ⟨t', hwrite, m', hm', hsame, hmem⟩ :=
      exists_readBack hm hlines hmark fun line hline => (List.mem_filter.mp hline).1
    exact ⟨t', hwrite, m', hm', hsame.trans hfiltered, hmem⟩

/-- A project whose list has a mark, a remark, an empty line, lines that end in different ways, a
pattern that stands twice and one that finds nothing. -/
def crowded : FileTree where
  nodes := Std.ExtTreeMap.ofList [
    ([".stylelintignore"], Node.file (Utf8.encode
      "\ufeff# debt\r\nb.css\ra.css\n\nb.css\r\nc.css\na.css".toList)),
    (["a.css"], Node.file (Sample.octets "a\n")),
    (["b.css"], Node.file (Sample.octets "b\n"))]
  here := []

theorem read_back_crowded :
    let p := Path.parse "/.stylelintignore"
    let m : IgnoreList := [⟨"b.css", [Path.parse "/b.css"]⟩, ⟨"a.css", [Path.parse "/a.css"]⟩]
    let kept : IgnoreList := [⟨"a.css", [Path.parse "/a.css"]⟩]
    let lines := ["# debt", "b.css", "a.css", "", "b.css", "c.css", "a.css"]
    (read crowded p Sample.base .standard).result = .ok m ∧
    TextFile.lines crowded p = .ok lines ∧
    kept.renderOver lines = "# debt\na.css\n\na.css\n".toList ∧
    ∀ text ∈ [kept.render, kept.renderOver lines], ∃ t', TextFile.write crowded p text = .ok t' ∧
      ∃ m', (read t' p Sample.base .standard).result = .ok m' ∧
        m'.map Entry.pattern = kept.map Entry.pattern ∧ ∀ e ∈ m', e ∈ m := by
  intro p m kept lines
  have hm : (read crowded p Sample.base .standard).result = .ok m := by decide +kernel
  have hlines : TextFile.lines crowded p = .ok lines := by decide +kernel
  have hmark : ∀ line ∈ lines, line.toList.head? ≠ some '\ufeff' := by decide +kernel
  have hkept : Part kept m := by decide +kernel
  refine ⟨hm, hlines, by decide +kernel, ?_⟩
  exact read_back crowded p Sample.base .standard m kept lines hm hlines hmark hkept

end IgnoreList
end LintDebt
