import LintDebt.Proofs.Workflow.CompressedFirst
import LintDebt.Proofs.Workflow.Compressing

/-! # Compressing twice

A compression by a linter that looks at one file at a time leaves a tree in which nothing is left to
compress: the list, the configuration and the files are found again as they were, and every line that
was kept is kept again. So a second compression ends well if the first one did, counts as many patterns
and changes nothing. -/

namespace LintDebt

open FileTree Query

namespace Workflow

open Job

variable {σ : Type} {l : Linter σ} {s : Settings} {base list p : Path} {opinion : Opinion}
  {t t' t₁ : FileTree} {config : Json.Fields} {lines : List String} {entries : IgnoreList}
  {files asked : List Path} {w : World (σ × List Call)}

theorem Ready.weaken (h : Ready t list asked) (hne : files ≠ [] → asked ≠ []) : Ready t list files :=
  ⟨h.tree, h.read, h.free, fun hfiles => h.hideable (hne hfiles)⟩

/-- Whatever is asked while there are patterns to examine can be asked. -/
theorem Ready.of_openEntries (h : Ready t (listPath s base) (openFiles t s base))
    (hopen : openEntries t s base = .ok entries) (hne : files ≠ [] → entries ≠ []) :
    Ready t (listPath s base) files := by
  refine h.weaken fun hfiles => ?_
  obtain ⟨e, he⟩ := List.exists_mem_of_ne_nil entries (hne hfiles)
  obtain ⟨p, hp⟩ := List.exists_mem_of_ne_nil e.files (files_ne_nil_of_openEntries hopen e he)
  rw [openFiles_eq hopen]
  exact List.ne_nil_of_mem (IgnoreList.mem_files.mpr ⟨e, he, hp⟩)

/-- Holds for a tree in which a compression finds all that it needs. -/
structure Compressible (t : FileTree) (s : Settings) (base : Path) : Prop where
  measured : ∃ stats, TextFile.measure t (listPath s base) = .ok stats
  prepared : ∃ config lines entries, Prepared t s base config lines entries
  ready : Ready t (listPath s base) (openFiles t s base)

theorem Compressible.not_unread (h : Compressible t s base) {e : Failure} : ¬ Unread t s base e := by
  obtain ⟨stats, hstats⟩ := h.measured
  obtain ⟨config, lines, entries, hprepared⟩ := h.prepared
  rintro (he | he | he | he)
  · cases hstats.symm.trans he
  · cases hprepared.loaded.symm.trans he
  · cases hprepared.found.symm.trans he
  · have hopen := hprepared.opened
    rw [openEntries, he] at hopen
    cases hopen

/-- A pattern gets its verdict if the linter tells its opinion. -/
theorem ends_judge_told {e : IgnoreList.Entry} (files : List Path) (opinion : Opinion)
    (hne : e.files ≠ []) :
    (judge l.watched s base config e).Ends w fun r t x => ∃ asked, x.2 = w.state.2 ++ asked ∧
      (Ready w.tree (listPath s base) e.files → (∀ c ∈ asked, c.Tells w.tree base files opinion) →
        t = w.tree ∧ ∃ v, r = .ok v) := by
  refine (ends_judge_of ends_violations).mono
    fun r t x ⟨answer, ⟨asked, hasked, hask⟩, hr⟩ => ⟨asked, hasked, fun hready htells => ?_⟩
  obtain ⟨rfl, reports, rfl⟩ := hready.asking hask fun c hc => answers_of_tells (htells c hc)
  refine ⟨rfl, ?_⟩
  rcases r with f | v
  · -- The linter reports on files only.
    rcases hr with hr | ⟨reports', hreports', r, hr, g, hsource, -⟩
    · cases hr
    cases hreports'
    obtain ⟨hnil, -⟩ | ⟨c, rfl, -, hanswer⟩ := hask.answer
    · exact absurd hnil hne
    obtain ⟨p, -, -, hp⟩ := (htells c (by simp)).exists_source hanswer hr
    cases hsource.symm.trans hp
  · exact ⟨v, rfl⟩

/-- What is known while the patterns of a list are examined by a linter that tells its opinion. -/
structure Untouched (t₀ : FileTree) (done : List IgnoreList.Entry) (x : Examined) (t : FileTree) :
    Prop where
  tree : t = t₀
  ok : x.outcome.status = .ok
  kept : done = [] → x.kept = []

/-- When all patterns were examined, the list can be written, and the last question asked. -/
theorem Compressible.exists_written {t₀ : FileTree} {x : Examined} (h : Compressible t₀ s base)
    (hopen : openEntries t₀ s base = .ok entries) (hx : Untouched t₀ entries x t) (lines : List String) :
    ∃ t₁, t.write (listPath s base).text (Utf8.encode (x.kept.renderOver lines)) = .ok t₁ ∧
      Ready t₁ (listPath s base) x.kept.files := by
  rw [hx.tree]
  obtain ⟨t₁, hwrite, hshape⟩ := h.ready.write (Utf8.encode (x.kept.renderOver lines))
  refine ⟨t₁, hwrite, Ready.of_sameShape ?_ hshape⟩
  refine h.ready.of_openEntries hopen fun hne hnil => hne ?_
  rw [hx.kept hnil]
  rfl

/-- The question about one of the patterns changes nothing and is answered. -/
theorem Compressible.ends_judge {e : IgnoreList.Entry} {w₀ w : World (σ × List Call)}
    (h : Compressible w₀.tree s base) (hopen : openEntries w₀.tree s base = .ok entries) (he : e ∈ entries)
    (hw : (∀ c ∈ w.state.2, c.Tells w₀.tree base (openFiles w₀.tree s base) opinion) →
      w.tree = w₀.tree) :
    (judge l.watched s base config e).Ends w fun r t y =>
      (∀ c ∈ y.2, c.Tells w₀.tree base (openFiles w₀.tree s base) opinion) →
        (∀ c ∈ w.state.2, c.Tells w₀.tree base (openFiles w₀.tree s base) opinion) ∧ t = w₀.tree ∧
          ∃ v, r = .ok v := by
  refine (ends_judge_told (openFiles w₀.tree s base) opinion (files_ne_nil_of_openEntries hopen e he)).mono
    fun r t y ⟨asked, hasked, hgood⟩ htells => ?_
  rw [hasked] at htells
  have hbefore := fun c hc => htells c (List.mem_append_left _ hc)
  rw [hw hbefore] at hgood
  exact ⟨hbefore, hgood (h.ready.of_openEntries hopen fun _ => List.ne_nil_of_mem he)
    fun c hc => htells c (List.mem_append_right _ hc)⟩

/-- The last question changes nothing and is answered. -/
theorem Compressible.asking {t₀ t₁ t₂ : FileTree} {x : Examined} {asked : List Call}
    {r : Except Failure (List Report)} (h : Compressible t₀ s base)
    (hopen : openEntries t₀ s base = .ok entries) (hx : Untouched t₀ entries x t)
    (hwrite : t.write (listPath s base).text (Utf8.encode (x.kept.renderOver lines)) = .ok t₁)
    (hask : Asking (listPath s base) config x.kept.files t₁ asked r t₂)
    (htells : ∀ c ∈ asked, c.Tells t₀ base (openFiles t₀ s base) opinion) :
    t₂ = t₁ ∧ ∃ reports, r = .ok reports := by
  obtain ⟨t', hwrite', hready⟩ := h.exists_written hopen hx lines
  cases hwrite.symm.trans hwrite'
  exact hready.asking hask fun c hc => answers_of_tells (htells c hc)

/-- Holds of an ending if the run ended well, as far as the linter told its opinion. -/
def EndsWell (s : Settings) (base : Path) (opinion : Opinion) (t : FileTree)
    (r : Except Failure Outcome) (_ : FileTree) (x : σ × List Call) : Prop :=
  (∀ c ∈ x.2, c.Tells t base (openFiles t s base) opinion) → ∃ o, r = .ok o ∧ o.status = .ok

theorem ends_compress_of_compressible (h : Compressible w.tree s base) :
    (compress l.watched s base).Ends w (EndsWell s base opinion w.tree) := by
  refine ends_compress_of (fun _ e he => absurd he h.not_unread)
    fun stats config lines entries hprepared log => ?_
  refine ends_examine_of (fun done x t calls =>
    (∀ c ∈ calls, c.Tells w.tree base (openFiles w.tree s base) opinion) → Untouched w.tree done x t)
    entries ?_ ?_ _ _ fun _ => ⟨rfl, rfl, fun _ => rfl⟩
  · intro done e rest hentries x w₁ hx
    have he : e ∈ entries := by simp [hentries]
    refine (h.ends_judge hprepared.opened he fun htells => (hx htells).tree).mono
      fun r t y hanswer => ?_
    rcases r with f | v
    · refine .of_forall fun r htells => ?_
      obtain ⟨-, -, v, hv⟩ := hanswer htells
      cases hv
    · intro htells
      obtain ⟨hbefore, htree, -⟩ := hanswer htells
      exact ⟨htree, (hx hbefore).ok, by simp⟩
  intro x w₁ hx
  have hanswered : ∀ {t asked r t'}, w₁.tree.write (listPath s base).text
      (Utf8.encode (x.kept.renderOver lines)) = .ok t →
      Asking (listPath s base) config x.kept.files t asked r t' →
      (∀ c ∈ w₁.state.2 ++ asked, c.Tells w.tree base (openFiles w.tree s base) opinion) →
        Untouched w.tree entries x w₁.tree ∧ t' = t ∧ ∃ reports, r = .ok reports := by
    intro t asked r t' hwrite hask htells
    have hx := hx fun c hc => htells c (List.mem_append_left _ hc)
    exact ⟨hx, h.asking hprepared.opened hx hwrite hask
      fun c hc => htells c (List.mem_append_right _ hc)⟩
  refine ends_finish (fun e he => ?_) (fun t hwrite asked e t' hask state => ?_)
    fun t hwrite asked remaining t' hask state => ⟨fun e he => ?_, fun stats _ htells => ?_⟩
  · refine .of_forall fun r htells => ?_
    obtain ⟨t, hwrite, -⟩ := h.exists_written hprepared.opened (hx htells) lines
    rw [TextFile.write_eq_ok.mpr hwrite] at he
    cases he
  · refine .of_forall fun r htells => ?_
    obtain ⟨-, -, reports, hreports⟩ := hanswered hwrite hask htells
    cases hreports
  · refine .of_forall fun r htells => ?_
    obtain ⟨-, rfl, -⟩ := hanswered hwrite hask htells
    rw [TextFile.measure_of_read (read_of_write hwrite), Utf8.decode_encode] at he
    cases he
  · exact ⟨_, rfl, (hanswered hwrite hask htells).1.ok⟩

theorem ok_of_compressible (l : Linter σ) (s : Settings) (base : Path) (w : World σ)
    (h : Compressible w.tree s base)
    (hcalls : ∀ c ∈ Task.compress.calls l s base w, c.Tells w.tree base (openFiles w.tree s base) opinion) :
    ∃ o, ((compress l s base).runFrom w).1 = .ok o ∧ o.status = .ok :=
  Task.compress.of_watched l s base w (P := fun r _ calls =>
    (∀ c ∈ calls, c.Tells w.tree base (openFiles w.tree s base) opinion) →
      ∃ o, r = .ok o ∧ o.status = .ok)
    (ends_compress_of_compressible h) hcalls

namespace Compressed

/-- After a compression the list stands apart as before. -/
theorem listApart (h : Compressed s base opinion t t' config entries lines) (hapart : ListApart t s base) :
    ListApart t' s base where
  tree := h.sameShape.isTree hapart.tree
  unmarked := fun found hfound line hline => by
    cases (h.found_after hapart).symm.trans hfound
    exact hapart.unmarked lines h.found line (List.mem_filter.mp hline).1
  unlisted := fun found hfound line hline hremark files hfiles p hp => by
    cases (h.found_after hapart).symm.trans hfound
    rw [← h.sameShape.resolvePattern] at hfiles
    rw [← h.sameShape.target?_eq, ← h.sameShape.target?_eq]
    exact hapart.unlisted lines h.found line (List.mem_filter.mp hline).1 hremark files hfiles p hp
  free := fun hidden hhidden => by
    rw [← h.sameShape.isPresent]
    exact hapart.free hidden hhidden
  config := by
    rw [← h.sameShape.target?_eq, ← h.sameShape.target?_eq]
    exact hapart.config

/-- After a compression there is all that another one needs. -/
theorem compressible (h : Compressed s base opinion t t' config entries lines)
    (hapart : ListApart t s base) : Compressible t' s base := by
  have hread := read_of_write h.written
  obtain ⟨entries', hopen'⟩ := exists_openEntries (h.found_after hapart) h.resolves_after
  refine ⟨⟨_, by rw [TextFile.measure_of_read hread, Utf8.decode_encode]⟩,
    ⟨config, _, entries', h.loaded_after hapart, h.found_after hapart, h.resolves_after, hopen'⟩, ?_⟩
  refine ((h.ready hapart fun p hp => hp).of_sameShape h.sameShape).weaken fun hne => ?_
  obtain ⟨p, hp⟩ := List.exists_mem_of_ne_nil _ hne
  exact List.ne_nil_of_mem ((h.named_after hapart).mp ((mem_openFiles hopen' (h.found_after hapart)).mp hp)).1

/-- A line that finds a failing file still does. -/
theorem stillFails_after (h : Compressed s base opinion t t' config entries lines)
    (hapart : ListApart t s base) {line : String} (hline : line ∈ lines)
    (hremark : IgnoreList.isRemark line = false) :
    stillFails t' s base (fails opinion config t') line =
      stillFails t s base (fails opinion config t) line := by
  rw [stillFails, stillFails, ← h.sameShape.resolvePattern]
  obtain ⟨files, hfiles⟩ := h.resolves line hline hremark
  rw [hfiles]
  dsimp only
  rw [Bool.eq_iff_iff, List.any_eq_true, List.any_eq_true]
  refine exists_congr fun p => and_congr_right fun hp => ?_
  have hstat := h.stat_eq_of_found hapart hline hremark hfiles hp
  rw [Blanket.isOpen_congr hstat, fails, fails, FileTree.read, FileTree.read, hstat]

theorem keptLines_after (h : Compressed s base opinion t t' config entries lines)
    (hapart : ListApart t s base) :
    keptLines t' s base opinion config (keptLines t s base opinion config lines) =
      keptLines t s base opinion config lines := by
  refine List.filter_eq_self.mpr fun line hline => ?_
  obtain ⟨hmem, hkept⟩ := List.mem_filter.mp hline
  cases hremark : IgnoreList.isRemark line with
  | true => rfl
  | false =>
    rw [h.stillFails_after hapart hmem hremark]
    rwa [hremark] at hkept

theorem keptCount_after (h : Compressed s base opinion t t' config entries lines)
    (hapart : ListApart t s base) :
    keptCount t' s base opinion config (keptLines t s base opinion config lines) =
      keptCount t s base opinion config lines := by
  have hsame : ((keptLines t s base opinion config lines).filter fun line =>
      !IgnoreList.isRemark line && stillFails t' s base (fails opinion config t') line) =
      lines.filter fun line =>
        !IgnoreList.isRemark line && stillFails t s base (fails opinion config t) line := by
    rw [keptLines, List.filter_filter]
    refine List.filter_congr fun line hline => ?_
    cases hremark : IgnoreList.isRemark line with
    | true => rfl
    | false =>
      rw [h.stillFails_after hapart hline hremark]
      simp
  rw [keptCount, keptCount, hsame]

/-- To write the kept lines again changes nothing. -/
theorem tree_after {t₂ : FileTree} {entries' : IgnoreList}
    (h : Compressed s base opinion t t' config entries lines) (hapart : ListApart t s base)
    (h' : Compressed s base opinion t' t₂ config entries' (keptLines t s base opinion config lines)) :
    t₂ = t' := by
  have hwritten := h'.written
  rw [h.keptLines_after hapart] at hwritten
  obtain ⟨old, hold⟩ := TextFile.read_of_lines h.found
  obtain ⟨x, hx, hn, htarget, -⟩ := write_of_read hold []
  have hput := eq_put_of_write htarget h.written
  rw [h.sameShape.target?_eq] at htarget
  rw [eq_put_of_write htarget hwritten, hput, put_put_self]

end Compressed

/-- Holds if a linter tells this opinion in a compression that ends well, and in another one after it. -/
structure TellsTwice (l : Linter σ) (s : Settings) (base : Path) (w : World σ) (opinion : Opinion) :
    Prop where
  ended : ((compress l s base).runFrom w).1.map Outcome.status = .ok .ok
  first : ∀ c ∈ Task.compress.calls l s base w, c.Tells w.tree base (openFiles w.tree s base) opinion
  again : ∀ c ∈ Task.compress.calls l s base ((compress l s base).runFrom w).2,
    c.Tells ((compress l s base).runFrom w).2.tree base
      (openFiles ((compress l s base).runFrom w).2.tree s base) opinion

instance {l : Linter σ} {s : Settings} {base : Path} {w : World σ} {opinion : Opinion} :
    Decidable (TellsTwice l s base w opinion) :=
  decidable_of_iff (((compress l s base).runFrom w).1.map Outcome.status = .ok .ok ∧
    (∀ c ∈ Task.compress.calls l s base w, c.Tells w.tree base (openFiles w.tree s base) opinion) ∧
    ∀ c ∈ Task.compress.calls l s base ((compress l s base).runFrom w).2,
      c.Tells ((compress l s base).runFrom w).2.tree base
        (openFiles ((compress l s base).runFrom w).2.tree s base) opinion)
    ⟨fun ⟨hended, hfirst, hagain⟩ => ⟨hended, hfirst, hagain⟩,
      fun ⟨hended, hfirst, hagain⟩ => ⟨hended, hfirst, hagain⟩⟩

/-- By a linter that looks at one file at a time, a compression after one that ended well ends well too,
counts as many patterns as kept, and leaves every file as it is, the list included. -/
theorem compresses_again (l : Linter σ) (s : Settings) (base : Path) (w : World σ) (opinion : Opinion)
    (hapart : ListApart w.tree s base) (htells : TellsTwice l s base w opinion) :
    let first := (compress l s base).runFrom w
    let again := (compress l s base).runFrom first.2
    ∃ o o', first.1 = .ok o ∧ again.1 = .ok o' ∧ o'.status = .ok ∧ o'.entriesKept = o.entriesKept ∧
      again.2.tree = first.2.tree := by
  obtain ⟨o, ho, hok⟩ := map_eq_ok.mp htells.ended
  obtain ⟨config, entries, lines, hcompressed, hcount⟩ :=
    exists_compressed_counted l s base w hapart htells.first ho hok
  obtain ⟨o', ho', hok'⟩ :=
    ok_of_compressible l s base _ (hcompressed.compressible hapart) htells.again
  obtain ⟨config', entries', lines', hcompressed', hcount'⟩ :=
    exists_compressed_counted l s base _ (hcompressed.listApart hapart) htells.again ho' hok'
  cases (hcompressed.loaded_after hapart).symm.trans hcompressed'.loaded
  cases (hcompressed.found_after hapart).symm.trans hcompressed'.found
  refine ⟨o, o', ho, ho', hok', ?_, hcompressed.tree_after hapart hcompressed'⟩
  rw [hcount', hcount, hcompressed.keptCount_after hapart]

theorem compresses_again_sample :
    let first := (compress Sample.strict .standard Sample.base).runFrom Sample.world
    let again := (compress Sample.strict .standard Sample.base).runFrom first.2
    first.2.tree ≠ Sample.tree ∧ ∃ o o', first.1 = .ok o ∧ again.1 = .ok o' ∧ o'.status = .ok ∧
      o'.entriesKept = o.entriesKept ∧ again.2.tree = first.2.tree := by
  refine ⟨by decide +kernel, ?_⟩
  exact compresses_again Sample.strict .standard Sample.base Sample.world strictOpinion
    (by decide +kernel) (by decide +kernel)

/-- Where the lint configuration is the list, a compression takes it away, and the next one cannot read
it. Where a stylesheet is at the hidden path, it takes that, and the next one does not find it. -/
theorem compresses_otherwise_sample :
    (let w : World Unit := ⟨(Sample.tree.put [".stylelintignore"] (.file (Sample.octets "\x7b\x7d\n"))).put
        [".stylelintrc.json"] (.link ".stylelintignore"), (), []⟩
      let w' := ((compress Sample.strict .standard Sample.base).runFrom w).2
      ListPlain w.tree .standard Sample.base ∧
        TellsTwice Sample.strict .standard Sample.base w strictOpinion ∧
        ((compress Sample.strict .standard Sample.base).runFrom w').1.map Outcome.status =
          .ok .aborted) ∧
    let w : World Unit := ⟨((Sample.tree.put [".stylelintignore"] (.file (Sample.octets "x.css\n"))).put
        [".stylelintignore.slim-hidden"] (.file (Sample.octets "a\n"))).put
          ["x.css"] (.link ".stylelintignore.slim-hidden"), (), []⟩
    let first := (compress Sample.strict .standard Sample.base).runFrom w
    let again := (compress Sample.strict .standard Sample.base).runFrom first.2
    ListPlain w.tree .standard Sample.base ∧
      TellsTwice Sample.strict .standard Sample.base w strictOpinion ∧
      first.1.map Outcome.entriesKept = .ok (some 1) ∧ again.1.map Outcome.entriesKept = .ok (some 0) := by
  decide +kernel

end Workflow
end LintDebt
