import LintDebt.Proofs.Workflow.Compressed
import LintDebt.Proofs.Workflow.Elimination
import LintDebt.Proofs.Workflow.Rating

/-! # Both tasks count the same errors

A compression asks about one pattern after the other and keeps the last report on each file; an
elimination asks about all files at once and counts all reports. By a linter that finds the same in a
file each time both come to the errors in the files that are open and that the list names, each file
counted once. -/

namespace LintDebt.Workflow

open Job FileTree Query

section reports

variable {reports : List (Path × Report)} {p : Path} {r : Report} {q : Path × Report}

theorem mem_putReport : q ∈ putReport reports p r ↔ q = (p, r) ∨ q ∈ reports ∧ q.1 ≠ p :=
  mem_setUnder Prod.fst reports (p, r)

theorem nodup_putReport (h : (reports.map Prod.fst).Nodup) :
    ((putReport reports p r).map Prod.fst).Nodup :=
  nodup_setUnder (a := (p, r)) h

/-- What is known of files after more reports: what the reports say, and what was known of the other
files. -/
theorem foldl_putReport (located : List (Path × Report)) (h : (reports.map Prod.fst).Nodup) :
    let all := located.foldl (fun reports (p, r) => putReport reports p r) reports
    (all.map Prod.fst).Nodup ∧ (∀ q ∈ all, q ∈ located ∨ q ∈ reports) ∧
      ∀ p, p ∈ all.map Prod.fst ↔ p ∈ located.map Prod.fst ∨ p ∈ reports.map Prod.fst := by
  induction located generalizing reports with
  | nil => exact ⟨h, by simp, by simp⟩
  | cons q rest ih =>
    obtain ⟨hnodup, hmem, hkeys⟩ := ih (nodup_putReport (p := q.1) (r := q.2) h)
    refine ⟨hnodup, fun q' hq' => ?_, fun p => ?_⟩
    · rcases hmem q' hq' with hrest | hput
      · exact Or.inl (List.mem_cons_of_mem _ hrest)
      · rcases mem_putReport.mp hput with rfl | ⟨hq', -⟩
        · exact Or.inl List.mem_cons_self
        · exact Or.inr hq'
    · rw [List.foldl_cons, hkeys, List.map_cons, List.mem_cons, or_comm (a := p = q.1), or_assoc]
      refine or_congr_right ?_
      simp only [List.mem_map, mem_putReport]
      constructor
      · rintro ⟨q', rfl | ⟨hq', -⟩, rfl⟩
        · exact Or.inl rfl
        · exact Or.inr ⟨q', hq', rfl⟩
      · rintro (rfl | ⟨q', hq', rfl⟩)
        · exact ⟨q, Or.inl rfl, rfl⟩
        · by_cases hne : q'.1 = q.1
          · exact ⟨q, Or.inl rfl, hne.symm⟩
          · exact ⟨q', Or.inr ⟨hq', hne⟩, rfl⟩

end reports

/-- What a linter finds in a file of this tree. -/
def finding (view : View) (config : Json.Fields) (t : FileTree) (p : Path) : Finding :=
  view config (t.read p.text).toOption

/-- Holds for the number of errors that a linter finds in the files that are open and that a line of
the list names, each counted once, while the list is hidden. -/
def IsTotal (t : FileTree) (s : Settings) (base : Path) (view : View) (n : Int) : Prop :=
  ∃ config lines, LintConfig.load t (lintConfigPath s base).text = .ok config ∧
    TextFile.lines t (listPath s base) = .ok lines ∧ ∃ files : List Path, files.Nodup ∧
      (∀ p, p ∈ files ↔ Blanket.isOpen t p = true ∧ Named t s base lines p) ∧
      n = errorTotal (finding view config (shown t (listPath s base))) files

variable {σ : Type} {l : Linter σ} {s : Settings} {base list : Path} {view : View} {octets : List UInt8}
  {t t' t₀ : FileTree} {asked calls : List Call} {config : Json.Fields} {files all : List Path}
  {entries done : List IgnoreList.Entry} {e : IgnoreList.Entry} {reports : List Report} {v : Verdict}
  {x : Examined} {find : Path → Finding} {n : Int}

theorem IsTotal.unique {m : Int} (h : IsTotal t s base view n) (h' : IsTotal t s base view m) :
    n = m := by
  obtain ⟨config, lines, hconfig, hlines, files, hnodup, hmem, rfl⟩ := h
  obtain ⟨config', lines', hconfig', hlines', files', hnodup', hmem', rfl⟩ := h'
  cases hconfig.symm.trans hconfig'
  cases hlines.symm.trans hlines'
  rw [errorTotal_perm ((List.perm_ext_iff_of_nodup hnodup hnodup').mpr fun p => by rw [hmem, hmem'])]

/-- What the answer to a question says of the files asked about. -/
theorem rated_of_asking (hask : Asking list config files t asked (.ok reports) t')
    (hspared : Spared t₀ list t) (ht₀ : t₀.IsTree) (hread : t₀.read list.text = .ok octets)
    (hcalls : ∀ c ∈ asked, c.Rates (bare t₀ list) base all view) :
    Rated (bare t₀ list) base all (files.map Path.text) (finding view config (shown t₀ list)) reports := by
  rcases hask.answer with ⟨rfl, rfl, rfl, -⟩ | ⟨c, rfl, hfiles, hanswer⟩
  · exact ⟨fun p _ hp => absurd hp List.not_mem_nil, by simp⟩
  have hc : c ∈ [c] := List.mem_singleton_self c
  have hrated := (hcalls c hc).2 reports hanswer
  rw [hfiles] at hrated
  refine hrated.congr fun p _ _ => ?_
  rw [finding, (hask.asked c hc).1, hask.shows hspared ht₀ hread c hc p.text]

/-- What is known of the files when some of the patterns were examined. -/
structure Counted (t₀ : FileTree) (list : Path) (find : Path → Finding) (all : List Path)
    (done : List IgnoreList.Entry) (x : Examined) (t : FileTree) : Prop where
  tree : Spared t₀ list t
  uncounted : x.outcome.errorsBefore = none
  nodup : (x.reports.map Prod.fst).Nodup
  found : ∀ q ∈ x.reports, q.1 ∈ all ∧ (q.2.errored, q.2.warnings) = find q.1
  known : ∀ e ∈ done, ∀ p ∈ e.files, p ∈ x.reports.map Prod.fst

theorem Counted.add (h : Counted t₀ list find all done x t) (hcleared : Cleared t₀ list t')
    (hv : Judged t' base e reports v) (hsub : ∀ p ∈ e.files, p ∈ all)
    (hrated : Rated (bare t₀ list) base all (e.files.map Path.text) find reports) :
    Counted t₀ list find all (done ++ [e]) (x.add e v) t' := by
  have hlocated : ∀ q, q ∈ v.reports ↔
      q.2 ∈ reports ∧ sourcePath (bare t₀ list) base q.2.source = .ok q.1 := by
    intro q
    rw [mem_of_mapM hv.located, ← hcleared.eq_bare]
    constructor
    · rintro ⟨r, hr, hq⟩
      obtain ⟨p, hp, hq⟩ := bind_eq_ok.mp hq
      cases hq
      exact ⟨hr, hp⟩
    · rintro ⟨hr, hp⟩
      exact ⟨q.2, hr, bind_eq_ok.mpr ⟨q.1, hp, rfl⟩⟩
  obtain ⟨hnodup, hmem, hkeys⟩ := foldl_putReport v.reports h.nodup
  refine ⟨Or.inr hcleared, h.uncounted, hnodup, fun q hq => ?_, fun f hf p hp => ?_⟩
  · rcases hmem q hq with hq | hq
    · obtain ⟨hr, hp⟩ := (hlocated q).mp hq
      obtain ⟨hall, -, hfound⟩ := hrated.found hr hp
      exact ⟨hall, hfound⟩
    · exact h.found q hq
  · refine (hkeys p).mpr ?_
    rcases List.mem_append.mp hf with hf | hf
    · exact Or.inr (h.known f hf p hp)
    · rw [List.mem_singleton.mp hf] at hp
      obtain ⟨r, hone, -⟩ := hrated.exists_report (hsub p hp) (List.mem_map_of_mem hp)
      have hr : r ∈ reports.filter fun r => sourcePath (bare t₀ list) base r.source = .ok p := by
        simp [hone]
      obtain ⟨hr, hsource⟩ := List.mem_filter.mp hr
      exact Or.inl (List.mem_map.mpr ⟨(p, r), (hlocated _).mpr ⟨hr, by simpa using hsource⟩, rfl⟩)

/-- When all patterns were examined, the reports have all errors. -/
theorem Counted.countErrors_eq (h : Counted t₀ list find all entries x t) (hnodup : all.Nodup)
    (hall : ∀ p ∈ all, ∃ e ∈ entries, p ∈ e.files) :
    countErrors (x.reports.map Prod.snd) = errorTotal find all := by
  have hperm : (x.reports.map Prod.fst).Perm all := by
    refine (List.perm_ext_iff_of_nodup h.nodup hnodup).mpr fun p => ⟨fun hp => ?_, fun hp => ?_⟩
    · obtain ⟨q, hq, rfl⟩ := List.mem_map.mp hp
      exact (h.found q hq).1
    · obtain ⟨e, he, hp⟩ := hall p hp
      exact h.known e he p hp
  rw [LintDebt.countErrors_eq, List.flatMap_map, ← errorTotal_perm hperm, errorTotal, List.flatMap_map]
  refine congrArg errorCount (List.flatMap_congr fun q hq => ?_)
  rw [← (h.found q hq).2]

/-- Holds of an ending if the errors it counts are all that such a linter finds. -/
def EndsCounted (s : Settings) (base : Path) (view : View) (t : FileTree) (all : List Path)
    (r : Except Failure Outcome) (_ : FileTree) (x : σ × List Call) : Prop :=
  (∀ c ∈ x.2, c.Rates (bare t (listPath s base)) base all view) →
    ∀ o, r = .ok o → ∀ n, o.errorsBefore = some n → IsTotal t s base view n

/-- A run that stops has counted what it had counted before. -/
theorem settled_endsCounted {o : Outcome} {f : Failure} {y : σ × List Call}
    (h : (∀ c ∈ y.2, c.Rates (bare t (listPath s base)) base all view) →
      ∀ n, o.errorsBefore = some n → IsTotal t s base view n) :
    Settled o (EndsCounted s base view t all) f t' y := by
  cases f with
  | tool e =>
    intro hcalls o' ho n hn
    cases ho
    exact h hcalls n hn
  | fault f => exact fun _ o' ho => by cases ho

variable {w : World (σ × List Call)}

theorem ends_compress_counted (ht : w.tree.IsTree) : (compress l.watched s base).Ends w
    (EndsCounted s base view w.tree (openFiles w.tree s base)) := by
  have hnone : ∀ {o : Outcome} {f : Failure} {t' : FileTree} {y : σ × List Call},
      o.errorsBefore = none →
        Settled o (EndsCounted s base view w.tree (openFiles w.tree s base)) f t' y :=
    fun ho => settled_endsCounted fun _ n hn => by rw [ho] at hn; cases hn
  refine ends_compress_of (fun _ _ _ => hnone rfl) fun stats config lines entries hprepared log => ?_
  obtain ⟨octets, hread⟩ := TextFile.read_of_lines hprepared.found
  have hfiles : ∀ p, p ∈ openFiles w.tree s base ↔ ∃ e ∈ entries, p ∈ e.files := by
    intro p
    rw [openFiles_eq hprepared.opened, IgnoreList.mem_files]
  have hnodup := nodup_openFiles hprepared.opened
  refine ends_examine (fun done x t calls => x.outcome.errorsBefore = none ∧
      ((∀ c ∈ calls, c.Rates (bare w.tree (listPath s base)) base (openFiles w.tree s base) view) →
        Counted w.tree (listPath s base) (finding view config (shown w.tree (listPath s base)))
          (openFiles w.tree s base) done x t)) entries ?_ ?_ ?_ _ _
    ⟨rfl, fun _ => ⟨Or.inl rfl, rfl, by simp, by simp, by simp⟩⟩
  · intro done e he x t calls ⟨hx, _⟩ asked answer t' hask f state
    exact hnone hx
  · intro done e he x t calls ⟨hx, hcounted⟩ asked reports t' v hask hv
    refine ⟨hx, fun hcalls => ?_⟩
    have h := hcounted fun c hc => hcalls c (List.mem_append_left _ hc)
    have hasked := fun c hc => hcalls c (List.mem_append_right calls hc)
    refine h.add ?_ hv (fun p hp => (hfiles p).mpr ⟨e, he, hp⟩)
      (rated_of_asking hask h.tree ht hread hasked)
    exact hask.cleared ⟨reports, rfl⟩ h.tree ht hread (fun c hc => (hasked c hc).1)
      (files_ne_nil_of_openEntries hprepared.opened e he)
  intro x w' ⟨hx, hcounted⟩
  -- Once the list is written the count is there, and the last question does not change it.
  have hcount : ∀ {asked : List Call}, (∀ c ∈ w'.state.2 ++ asked,
      c.Rates (bare w.tree (listPath s base)) base (openFiles w.tree s base) view) → ∀ n,
        some (countErrors (x.reports.map Prod.snd) : Int) = some n → IsTotal w.tree s base view n := by
    intro asked hcalls n hn
    refine ⟨config, lines, hprepared.loaded, hprepared.found, _, hnodup,
      fun p => mem_openFiles hprepared.opened hprepared.found, ?_⟩
    rw [← Option.some.inj hn, (hcounted fun c hc => hcalls c (List.mem_append_left _ hc)).countErrors_eq
      hnodup fun p hp => (hfiles p).mp hp]
  refine ends_finish (fun _ _ => hnone hx)
    (fun _ _ _ _ _ _ _ => settled_endsCounted fun hcalls => hcount hcalls)
    fun _ _ _ _ _ _ _ => ⟨fun _ _ => settled_endsCounted fun hcalls => hcount hcalls,
      fun stats _ hcalls o ho => ?_⟩
  cases ho
  exact hcount hcalls

theorem errorsBefore_foldl_record (o : Outcome) (results : List (Except Failure Int)) :
    (results.foldl record o).errorsBefore = o.errorsBefore := by
  induction results generalizing o with
  | nil => rfl
  | cons result rest ih => cases result <;> exact ih _

/-- The lines of a list that was surveyed, and the files that were asked about. -/
theorem Surveyed.exists_lines (h : Surveyed t s base config files) :
    ∃ lines, TextFile.lines t (listPath s base) = .ok lines ∧ files.Nodup ∧
      (∀ p, p ∈ files ↔ Blanket.isOpen t p = true ∧ Named t s base lines p) ∧
      ∃ entries, openEntries t s base = .ok entries := by
  obtain ⟨m, hm, hfiles⟩ := h.files
  obtain ⟨lines, hlines⟩ := IgnoreList.exists_lines_of_read hm
  have hresolves := IgnoreList.resolves_of_readLines (IgnoreList.readLines_of_read hm hlines)
  obtain ⟨files', ⟨-, m', hm', hfiles'⟩, hmem⟩ := exists_surveyed h.config hlines hresolves
  cases hm.symm.trans hm'
  cases hfiles.symm.trans hfiles'
  refine ⟨lines, hlines, ?_, hmem, exists_openEntries hlines hresolves⟩
  rw [Blanket.result_filter hfiles, IgnoreList.files]
  exact (nodup_eraseDups _).filter _

theorem ends_eliminate_counted {style : Suppression.Style} (ht : w.tree.IsTree)
    (hcalls : w.state.2 = []) : (eliminate l.watched s base style).Ends w
      (EndsCounted s base view w.tree (openFiles w.tree s base)) := by
  have hstopped : ∀ {e : Failure} {t' : FileTree} {y : σ × List Call}, Settled (Outcome.start "eliminate")
      (EndsCounted s base view w.tree (openFiles w.tree s base)) e t' y :=
    settled_endsCounted fun _ n hn => by cases hn
  refine ends_eliminate_of hcalls ends_true (fun _ _ _ _ => hstopped) (fun _ _ _ _ _ _ _ _ _ => hstopped)
    fun config files hsurveyed first reports t state hask _ log => ?_
  obtain ⟨octets, hread⟩ := hsurveyed.exists_read
  obtain ⟨lines, hlines, hfiles, hmem, entries, hopen⟩ := hsurveyed.exists_lines
  have hall : ∀ p, p ∈ openFiles w.tree s base ↔ p ∈ files := fun p => by
    rw [mem_openFiles hopen hlines, hmem]
  have htotal : (∀ c ∈ first, c.Rates (bare w.tree (listPath s base)) base (openFiles w.tree s base)
      view) → IsTotal w.tree s base view (countErrors reports) := by
    intro hrates
    refine ⟨config, lines, hsurveyed.config, hlines, files, hfiles, hmem, ?_⟩
    have hasked : (openFiles w.tree s base).filter (·.text ∈ files.map Path.text) =
        openFiles w.tree s base :=
      List.filter_eq_self.mpr fun p hp => by simpa using ⟨p, (hall p).mp hp, rfl⟩
    have hnodup := nodup_openFiles hopen
    rw [(rated_of_asking hask (Or.inl rfl) ht hread hrates).countErrors_eq hnodup, hasked,
      errorTotal_perm ((List.perm_ext_iff_of_nodup hnodup hfiles).mpr hall)]
  -- The count is there before the first file is annotated, and nothing changes it.
  have hcount : ∀ {results o t₂}, Worked (σ × List Call) base style reports t results o t₂ →
      ∀ later, (∀ c ∈ first ++ later,
        c.Rates (bare w.tree (listPath s base)) base (openFiles w.tree s base) view) →
      ∀ n, o.errorsBefore = some n → IsTotal w.tree s base view n := by
    intro results o t₂ hworked later hrates n hn
    rw [hworked.outcome, errorsBefore_foldl_record] at hn
    cases hn
    exact htotal fun c hc => hrates c (List.mem_append_left later hc)
  refine ends_work ends_true (fun _ _ _ _ o ho => by cases ho)
    (fun results o t₂ hworked _ _ e _ => settled_endsCounted fun hrates => ?_)
    fun results o t₂ hworked _ t₃ _ log => ?_
  · exact hcount hworked [] (by simpa using hrates)
  · refine ends_recount.mono fun r t' y ⟨later, _, hlater, _, ho', _⟩ hrates o' ho n hn => ?_
    obtain ⟨state', calls⟩ := y
    obtain rfl : calls = first ++ later := hlater
    rcases ho' o' ho with ⟨_, rfl⟩ | ⟨_, rfl⟩ <;> exact hcount hworked later hrates n hn

/-- By a linter that finds the same in a file each time, a compression and an elimination of one tree
that get as far as to count the errors come to the same count: all errors in the files that are open and
that the list names, however many of its patterns find a file. -/
theorem counts_alike (l : Linter σ) (s : Settings) (base : Path) (style : Suppression.Style)
    (w w' : World σ) (view : View) {o o' : Outcome} {n' : Int} (ht : w.tree.IsTree)
    (htree : w'.tree = w.tree)
    (hcompress : ∀ c ∈ Task.compress.calls l s base w,
      c.Rates (bare w.tree (listPath s base)) base (openFiles w.tree s base) view)
    (heliminate : ∀ c ∈ (Task.eliminate style).calls l s base w',
      c.Rates (bare w.tree (listPath s base)) base (openFiles w.tree s base) view)
    (ho : ((compress l s base).runFrom w).1 = .ok o)
    (ho' : ((eliminate l s base style).runFrom w').1 = .ok o')
    (hn : o.errorsBefore = some n) (hn' : o'.errorsBefore = some n') :
    n = n' ∧ IsTotal w.tree s base view n := by
  have hcounted := Task.compress.of_watched l s base w (P := fun r _ calls =>
    (∀ c ∈ calls, c.Rates (bare w.tree (listPath s base)) base (openFiles w.tree s base) view) →
      ∀ o, r = .ok o → ∀ n, o.errorsBefore = some n → IsTotal w.tree s base view n)
    (ends_compress_counted ht) hcompress o ho n hn
  have ht' : w'.tree.IsTree := by
    rw [htree]
    exact ht
  have hcounted' := (Task.eliminate style).of_watched l s base w' (P := fun r _ calls =>
    (∀ c ∈ calls, c.Rates (bare w'.tree (listPath s base)) base (openFiles w'.tree s base) view) →
      ∀ o, r = .ok o → ∀ n, o.errorsBefore = some n → IsTotal w'.tree s base view n)
    (ends_eliminate_counted ht' rfl) (by rw [htree]; exact heliminate) o' ho' n' hn'
  rw [htree] at hcounted'
  exact ⟨hcounted.unique hcounted', hcounted⟩

/-- What `Sample.strict` finds in every file. -/
def strictView : View := fun _ _ => (true, [⟨.error, 1, 1, Text.unitsOf "rule", []⟩])

/-- Two patterns find the one stylesheet, and its error counts once. -/
theorem counts_alike_sample :
    let w : World Unit := ⟨Sample.tree.put [".stylelintignore"]
      (.file (Sample.octets "a.css\n*.css\n")), (), []⟩
    IsTotal w.tree .standard Sample.base strictView 1 := by
  intro w
  obtain ⟨o, ho, hn⟩ : ∃ o, ((compress Sample.strict .standard Sample.base).runFrom w).1 = .ok o ∧
      o.errorsBefore = some 1 :=
    ⟨⟨"compress", .ok, some 1, some 1, 2, some 2, some [("size", 12), ("length", 3)],
      some [("size", 12), ("length", 3)], []⟩, by decide +kernel, rfl⟩
  obtain ⟨o', ho', hn'⟩ : ∃ o, ((eliminate Sample.strict .standard Sample.base .block).runFrom w).1 =
      .ok o ∧ o.errorsBefore = some 1 :=
    ⟨⟨"eliminate", .ok, some 1, some 1, 1, none, none, none, []⟩, by decide +kernel, rfl⟩
  exact (counts_alike Sample.strict .standard Sample.base .block w w strictView (by decide +kernel) rfl
    (by decide +kernel) (by decide +kernel) ho ho' hn hn').2

end LintDebt.Workflow
