import LintDebt.Proofs.IgnoreList.ReadBack
import LintDebt.Proofs.Query.Answering
import LintDebt.Proofs.Workflow.Compressing
import LintDebt.Proofs.Workflow.Telling

/-! # The tree after a compression

When the list stands apart from all that a run reads besides it, a compression by a linter that looks at
one file at a time changes the list and nothing else. What it has learnt on the way holds of every later
run too: the list can be hidden, the configuration can be read, and each pattern can be looked up. -/

namespace LintDebt.Workflow

open Job FileTree Query

/-- Where the lint configuration is read. -/
def configText (s : Settings) (base : Path) : String := (Path.parse (lintConfigPath s base).text).text

/-- Holds for a list of which no line begins with a byte order mark and no pattern finds the list. -/
structure ListPlain (t : FileTree) (s : Settings) (base : Path) : Prop where
  tree : t.IsTree
  unmarked : ∀ lines, TextFile.lines t (listPath s base) = .ok lines →
    ∀ line ∈ lines, line.toList.head? ≠ some '\ufeff'
  unlisted : ∀ lines, TextFile.lines t (listPath s base) = .ok lines → ∀ line ∈ lines,
    IgnoreList.isRemark line = false →
      ∀ files, Glob.resolvePattern t base (s.patterns.expand line) = .ok files →
        ∀ p ∈ files, t.target? p.text ≠ t.target? (listPath s base).text

/-- Holds if besides nothing is at the hidden path, and the lint configuration is another file. -/
structure ListApart (t : FileTree) (s : Settings) (base : Path) : Prop extends ListPlain t s base where
  free : ∀ hidden, hiddenPath (listPath s base) = .ok hidden → t.isPresent hidden.text = false
  config : t.target? (configText s base) ≠ t.target? (listPath s base).text

set_option synthInstance.maxSize 256 in
instance {t : FileTree} {s : Settings} {base : Path} : Decidable (ListPlain t s base) :=
  decidable_of_iff (t.IsTree ∧ ∀ lines ∈ (TextFile.lines t (listPath s base)).toOption,
      (∀ line ∈ lines, line.toList.head? ≠ some '\ufeff') ∧
      ∀ line ∈ lines, IgnoreList.isRemark line = false →
        ∀ files ∈ (Glob.resolvePattern t base (s.patterns.expand line)).toOption,
          ∀ p ∈ files, t.target? p.text ≠ t.target? (listPath s base).text) <| by
    simp only [mem_toOption]
    constructor
    · rintro ⟨htree, hlines⟩
      exact ⟨htree, fun lines h => (hlines lines h).1, fun lines h => (hlines lines h).2⟩
    · rintro ⟨htree, hunmarked, hunlisted⟩
      exact ⟨htree, fun lines h => ⟨hunmarked lines h, hunlisted lines h⟩⟩

instance {t : FileTree} {s : Settings} {base : Path} : Decidable (ListApart t s base) :=
  decidable_of_iff (ListPlain t s base ∧
    (∀ hidden ∈ (hiddenPath (listPath s base)).toOption, t.isPresent hidden.text = false) ∧
    t.target? (configText s base) ≠ t.target? (listPath s base).text) <| by
    simp only [mem_toOption]
    constructor
    · rintro ⟨hplain, hfree, hconfig⟩
      exact ⟨hplain, hfree, hconfig⟩
    · rintro ⟨hplain, hfree, hconfig⟩
      exact ⟨hplain, hfree, hconfig⟩

variable {σ : Type} {l : Linter σ} {s : Settings} {base list p : Path} {opinion : Opinion}
  {t t' : FileTree} {config : Json.Fields} {lines : List String} {entries : IgnoreList} {c : Call}

/-- The files that are asked about can be read, and none of them is the list. -/
theorem ListApart.openFiles (h : ListApart t s base) (hopen : openEntries t s base = .ok entries)
    (hlines : TextFile.lines t (listPath s base) = .ok lines) : ∀ p ∈ openFiles t s base,
      (∃ octets, t.read p.text = .ok octets) ∧ t.target? p.text ≠ t.target? (listPath s base).text := by
  intro p hp
  rw [openFiles_eq hopen, IgnoreList.mem_files] at hp
  obtain ⟨e, he, hp⟩ := hp
  obtain ⟨hline, hremark, -, files, hfiles, heq⟩ := ((mem_openEntries hopen hlines).2 e).mp he
  rw [heq] at hp
  have hp := (List.mem_filter.mp hp).1
  exact ⟨Glob.exists_read_of_resolvePattern hfiles hp,
    h.unlisted lines hlines e.pattern hline hremark files hfiles p hp⟩

/-- The lines that a compression keeps. -/
def keptLines (t : FileTree) (s : Settings) (base : Path) (opinion : Opinion) (config : Json.Fields)
    (lines : List String) : List String :=
  lines.filter fun line => IgnoreList.isRemark line || stillFails t s base (fails opinion config t) line

/-- How many patterns a compression keeps. -/
def keptCount (t : FileTree) (s : Settings) (base : Path) (opinion : Opinion) (config : Json.Fields)
    (lines : List String) : Nat :=
  (lines.filter fun line =>
    !IgnoreList.isRemark line && stillFails t s base (fails opinion config t) line).dedup.length

/-- What a compression that ended well did, and what it shows about the tree. -/
structure Compressed (s : Settings) (base : Path) (opinion : Opinion) (t t' : FileTree)
    (config : Json.Fields) (entries : IgnoreList) (lines : List String) : Prop where
  loaded : LintConfig.load t (lintConfigPath s base).text = .ok config
  found : TextFile.lines t (listPath s base) = .ok lines
  resolves : ∀ line ∈ lines, IgnoreList.isRemark line = false →
    ∃ files, Glob.resolvePattern t base (s.patterns.expand line) = .ok files
  opened : openEntries t s base = .ok entries
  hideable : openFiles t s base ≠ [] → Hideable t (listPath s base)
  written : t.write (listPath s base).text (Utf8.encode (IgnoreList.renderLines
    (keptLines t s base opinion config lines))) = .ok t'

/-- Holds of an ending if it is what the compression of such a linter comes to, as far as the run ended
well. -/
def EndsRewritten (s : Settings) (base : Path) (opinion : Opinion) (t : FileTree)
    (r : Except Failure Outcome) (t' : FileTree) (x : σ × List Call) : Prop :=
  (∀ c ∈ x.2, c.Tells t base (openFiles t s base) opinion) → ∀ o, r = .ok o → o.status = .ok →
    ∃ config entries lines, Compressed s base opinion t t' config entries lines ∧
      o.entriesKept = some (keptCount t s base opinion config lines : Int)

theorem settled_endsRewritten {o : Outcome} {f : Failure} {x : σ × List Call} :
    Settled o (EndsRewritten s base opinion t) f t' x :=
  settled_of_ok

/-- What is known when some of the patterns were examined by such a linter. -/
structure Heard (t₀ : FileTree) (list : Path) (failing : Path → Bool) (entries done : List IgnoreList.Entry)
    (x : Examined) (t : FileTree) : Prop where
  told : Told t₀ list failing entries done x t
  tree : t = t₀
  hideable : done ≠ [] → Hideable t₀ list

theorem Heard.asking {t₀ : FileTree} {done : List IgnoreList.Entry} {e : IgnoreList.Entry} {v : Verdict}
    {x : Examined} {asked : List Call} {reports : List Report}
    (h : Heard t₀ (listPath s base) (fails opinion config t₀) entries done x t) (hapart : ListApart t₀ s base)
    (hlines : TextFile.lines t₀ (listPath s base) = .ok lines) (hopen : openEntries t₀ s base = .ok entries)
    (he : e ∈ entries) (hask : Asking (listPath s base) config e.files t asked (.ok reports) t')
    (hv : Judged t' base e reports v)
    (htells : ∀ c ∈ asked, c.Tells t₀ base (openFiles t₀ s base) opinion) :
    Heard t₀ (listPath s base) (fails opinion config t₀) entries (done ++ [e]) (x.add e v) t' := by
  obtain rfl := h.tree
  obtain ⟨octets, hread⟩ := TextFile.read_of_lines hlines
  obtain ⟨rfl, hidle | ⟨hhideable, c, rfl, hsame, hpaths, hanswer, hsees⟩⟩ :=
    hask.seen hapart.tree hread (fun c hc => (htells c hc).1) hapart.free
  · exact absurd hidle.1 (files_ne_nil_of_openEntries hopen e he)
  have hsees' : c.Sees t' config (openFiles t' s base) := by
    refine ⟨hsame, fun p hp => ?_⟩
    obtain ⟨⟨old, hold⟩, hother⟩ := hapart.openFiles hopen hlines p hp
    exact ⟨old, hold, hsees p.text old hother hold⟩
  have hfaithful := (htells c (by simp)).faithful hsees'
  refine ⟨h.told.add (mem_openEntries hopen hlines).1 he (Or.inl rfl)
    (hv.failing_eq_filter fun p hp => ?_), rfl, fun _ => hhideable⟩
  have hlisted : p ∈ openFiles t' s base := by
    rw [openFiles_eq hopen, IgnoreList.mem_files]
    exact ⟨e, he, hp⟩
  exact hfaithful.2 reports hanswer p hlisted (by rw [hpaths]; exact List.mem_map_of_mem hp)

variable {w : World (σ × List Call)}

theorem ends_compress_rewritten (h : ListApart w.tree s base) :
    (compress l.watched s base).Ends w (EndsRewritten s base opinion w.tree) := by
  refine ends_compress_of (fun _ _ _ => settled_endsRewritten)
    fun stats config lines entries hprepared log => ?_
  obtain ⟨hconfig, hlines, hresolves, hopen⟩ := hprepared
  obtain ⟨octets, hread⟩ := TextFile.read_of_lines hlines
  refine ends_examine (fun done x t calls =>
      (∀ c ∈ calls, c.Tells w.tree base (openFiles w.tree s base) opinion) →
        Heard w.tree (listPath s base) (fails opinion config w.tree) entries done x t)
    entries ?_ ?_ ?_ _ _
    fun _ => ⟨⟨Or.inl rfl, by simp, rfl, by simp, by simp⟩, rfl, fun hne => absurd rfl hne⟩
  · intro done e he x t calls hx asked answer t' hask f state
    exact settled_endsRewritten
  · intro done e he x t calls hx asked reports t' v hask hv htells
    exact (hx fun c hc => htells c (List.mem_append_left _ hc)).asking h hlines hopen he hask hv
      fun c hc => htells c (List.mem_append_right _ hc)
  intro x w' hx
  refine ends_finish (fun _ _ => settled_endsRewritten) (fun _ _ _ _ _ _ _ => settled_endsRewritten)
    fun t₁ hwrite asked remaining t' hask state => ⟨fun _ _ => settled_endsRewritten, fun _ _ => ?_⟩
  intro htells o ho _
  cases ho
  obtain ⟨htold, htree, hhideable⟩ := hx fun c hc => htells c (List.mem_append_left _ hc)
  rw [htree, htold.renderOver_eq hopen hlines] at hwrite
  obtain ⟨k, hk, hn, -, hput⟩ := write_of_read hread (Utf8.encode (IgnoreList.renderLines
    (keptLines w.tree s base opinion config lines)))
  have hshape : SameShape w.tree t₁ := by
    cases hput.symm.trans hwrite
    exact .put hk hn _
  obtain ⟨rfl, -⟩ := hask.seen (hshape.isTree h.tree) (read_of_write hwrite)
    (fun c hc => (htells c (List.mem_append_right _ hc)).1)
    fun hidden hhidden => by rw [← hshape.isPresent]; exact h.free hidden hhidden
  refine ⟨config, entries, lines, ⟨hconfig, hlines, hresolves, hopen, fun hne => hhideable ?_, hwrite⟩, ?_⟩
  · rintro rfl
    exact hne (openFiles_eq hopen)
  · exact congrArg (fun n : Nat => some (n : Int)) (htold.length_kept hopen hlines)

/-- What every compression of such a linter that ends well comes to, and the count it tells. -/
theorem exists_compressed_counted (l : Linter σ) (s : Settings) (base : Path) (w : World σ)
    (h : ListApart w.tree s base)
    (hcalls : ∀ c ∈ Task.compress.calls l s base w, c.Tells w.tree base (openFiles w.tree s base) opinion)
    {o : Outcome} (ho : ((compress l s base).runFrom w).1 = .ok o) (hok : o.status = .ok) :
    ∃ config entries lines, Compressed s base opinion w.tree
      ((compress l s base).runFrom w).2.tree config entries lines ∧
        o.entriesKept = some (keptCount w.tree s base opinion config lines : Int) :=
  Task.compress.of_watched l s base w (P := fun r t calls =>
    (∀ c ∈ calls, c.Tells w.tree base (openFiles w.tree s base) opinion) → ∀ o, r = .ok o →
      o.status = .ok → ∃ config entries lines, Compressed s base opinion w.tree t config entries lines ∧
        o.entriesKept = some (keptCount w.tree s base opinion config lines : Int))
    (ends_compress_rewritten h) hcalls o ho hok

theorem exists_compressed (l : Linter σ) (s : Settings) (base : Path) (w : World σ)
    (h : ListApart w.tree s base)
    (hcalls : ∀ c ∈ Task.compress.calls l s base w, c.Tells w.tree base (openFiles w.tree s base) opinion)
    {o : Outcome} (ho : ((compress l s base).runFrom w).1 = .ok o) (hok : o.status = .ok) :
    ∃ config entries lines, Compressed s base opinion w.tree
      ((compress l s base).runFrom w).2.tree config entries lines := by
  obtain ⟨config, entries, lines, hcompressed, -⟩ := exists_compressed_counted l s base w h hcalls ho hok
  exact ⟨config, entries, lines, hcompressed⟩

/-! ## The tree afterwards -/

theorem mem_openFiles (hopen : openEntries t s base = .ok entries)
    (hlines : TextFile.lines t (listPath s base) = .ok lines) :
    p ∈ openFiles t s base ↔ Blanket.isOpen t p = true ∧ Named t s base lines p := by
  obtain ⟨-, hmem⟩ := mem_openEntries hopen hlines
  rw [openFiles_eq hopen, IgnoreList.mem_files]
  constructor
  · rintro ⟨e, he, hp⟩
    obtain ⟨hline, hremark, -, files, hfiles, heq⟩ := (hmem e).mp he
    rw [heq] at hp
    obtain ⟨hp, hisOpen⟩ := List.mem_filter.mp hp
    exact ⟨hisOpen, e.pattern, hline, hremark, files, hfiles, hp⟩
  · rintro ⟨hisOpen, line, hline, hremark, files, hfiles, hp⟩
    have hp' : p ∈ files.filter (Blanket.isOpen t) := List.mem_filter.mpr ⟨hp, hisOpen⟩
    exact ⟨⟨line, files.filter (Blanket.isOpen t)⟩,
      (hmem _).mpr ⟨hline, hremark, List.ne_nil_of_mem hp', files, hfiles, rfl⟩, hp'⟩

/-- A file that fails is found by a line that is kept. -/
theorem named_of_fails (hisOpen : Blanket.isOpen t p = true) (hnamed : Named t s base lines p)
    (hfails : fails opinion config t p = true) :
    Named t s base (keptLines t s base opinion config lines) p := by
  obtain ⟨line, hline, hremark, files, hfiles, hp⟩ := hnamed
  refine ⟨line, List.mem_filter.mpr ⟨hline, ?_⟩, hremark, files, hfiles, hp⟩
  rw [Bool.or_eq_true, stillFails, hfiles]
  exact Or.inr (List.any_eq_true.mpr ⟨p, hp, by rw [hisOpen, hfails]; rfl⟩)

namespace Compressed

/-- The one place that is another. -/
theorem exists_place (h : Compressed s base opinion t t' config entries lines) :
    ∃ x new, x ≠ [] ∧ t.target? (listPath s base).text = some x ∧ t' = t.put x (.file new) ∧
      SameShape t t' := by
  obtain ⟨old, hold⟩ := TextFile.read_of_lines h.found
  obtain ⟨x, hx, hn, htarget, hput⟩ := write_of_read hold (Utf8.encode (IgnoreList.renderLines
    (keptLines t s base opinion config lines)))
  obtain rfl := Except.ok.inj (h.written.symm.trans hput)
  exact ⟨x, _, hx, htarget, rfl, .put hx hn _⟩

theorem sameShape (h : Compressed s base opinion t t' config entries lines) : SameShape t t' := by
  obtain ⟨_, _, _, _, _, hshape⟩ := h.exists_place
  exact hshape

/-- Away from the list there is what was there before. -/
theorem stat_eq (h : Compressed s base opinion t t' config entries lines) {path : String}
    (hother : t.target? path ≠ t.target? (listPath s base).text) : t.stat path = t'.stat path := by
  obtain ⟨x, new, hx, htarget, rfl, hshape⟩ := h.exists_place
  refine hshape.stat_eq fun l hl => ?_
  rw [node?_put hx, if_neg]
  rintro rfl
  exact hother (hl.trans htarget.symm)

theorem loaded_after (h : Compressed s base opinion t t' config entries lines)
    (hapart : ListApart t s base) : LintConfig.load t' (lintConfigPath s base).text = .ok config := by
  have hsame := TextFile.octets_congr (p := .parse (lintConfigPath s base).text) (h.stat_eq hapart.config)
  rw [← h.loaded, LintConfig.load, LintConfig.load, TextFile.read, TextFile.read, hsame]

/-- The lines that are kept are read again. -/
theorem found_after (h : Compressed s base opinion t t' config entries lines)
    (hapart : ListApart t s base) : TextFile.lines t' (listPath s base) =
      .ok (keptLines t s base opinion config lines) := by
  have hsub : ∀ line ∈ keptLines t s base opinion config lines, line ∈ lines :=
    fun line hline => (List.mem_filter.mp hline).1
  apply TextFile.lines_of_rendered (read_of_write h.written)
  · exact fun line hline => TextFile.whole_of_lines h.found line (hsub line hline)
  · exact fun line hline => hapart.unmarked lines h.found line (hsub line hline)

theorem resolves_after (h : Compressed s base opinion t t' config entries lines) :
    ∀ line ∈ keptLines t s base opinion config lines, IgnoreList.isRemark line = false →
      ∃ files, Glob.resolvePattern t' base (s.patterns.expand line) = .ok files := by
  intro line hline hremark
  obtain ⟨files, hfiles⟩ := h.resolves line (List.mem_filter.mp hline).1 hremark
  exact ⟨files, by rw [← h.sameShape.resolvePattern, hfiles]⟩

/-- What the lines find besides the list is as it was. -/
theorem stat_eq_of_found (h : Compressed s base opinion t t' config entries lines)
    (hapart : ListApart t s base) {line : String} {files : List Path} (hline : line ∈ lines)
    (hremark : IgnoreList.isRemark line = false)
    (hfiles : Glob.resolvePattern t base (s.patterns.expand line) = .ok files) (hp : p ∈ files) :
    t.stat p.text = t'.stat p.text :=
  h.stat_eq (hapart.unlisted lines h.found line hline hremark files hfiles p hp)

/-- The open files that the kept lines find are the same as before. -/
theorem named_after (h : Compressed s base opinion t t' config entries lines)
    (hapart : ListApart t s base) :
    (Blanket.isOpen t' p = true ∧ Named t' s base (keptLines t s base opinion config lines) p) ↔
      p ∈ openFiles t s base ∧ Named t s base (keptLines t s base opinion config lines) p := by
  have hsub : ∀ line ∈ keptLines t s base opinion config lines, line ∈ lines :=
    fun line hline => (List.mem_filter.mp hline).1
  rw [mem_openFiles h.opened h.found]
  simp only [Named, ← h.sameShape.resolvePattern]
  constructor
  · rintro ⟨hisOpen, line, hline, hremark, files, hfiles, hp⟩
    rw [← Blanket.isOpen_congr (h.stat_eq_of_found hapart (hsub line hline) hremark hfiles hp)] at hisOpen
    exact ⟨⟨hisOpen, line, hsub line hline, hremark, files, hfiles, hp⟩,
      line, hline, hremark, files, hfiles, hp⟩
  · rintro ⟨⟨hisOpen, -⟩, line, hline, hremark, files, hfiles, hp⟩
    rw [Blanket.isOpen_congr (h.stat_eq_of_found hapart (hsub line hline) hremark hfiles hp)] at hisOpen
    exact ⟨hisOpen, line, hline, hremark, files, hfiles, hp⟩

/-- A survey finds all that it needs, and asks about the open files that the kept lines find. -/
theorem exists_surveyed_after (h : Compressed s base opinion t t' config entries lines)
    (hapart : ListApart t s base) : ∃ asked, Surveyed t' s base config asked ∧ ∀ p, p ∈ asked ↔
      p ∈ openFiles t s base ∧ Named t s base (keptLines t s base opinion config lines) p := by
  obtain ⟨asked, hsurveyed, hmem⟩ := exists_surveyed (h.loaded_after hapart) (h.found_after hapart)
    h.resolves_after
  exact ⟨asked, hsurveyed, fun p => by rw [hmem, h.named_after hapart]⟩

end Compressed

end LintDebt.Workflow
