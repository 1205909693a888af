import LintDebt.Proofs.Call
import LintDebt.Proofs.Query.Restoring
import LintDebt.Proofs.Suppression.Plan
import LintDebt.Proofs.TextFile
import LintDebt.Proofs.Workflow.Compressing
import LintDebt.Proofs.Workflow.Sample
import Mathlib.Data.List.Dedup

/-! # What a compression keeps

Of the lines of the list a compression keeps those that say nothing and those whose pattern finds a
file that is open and still fails. Which file fails is the linter's to say, so it has to say the same
in every call; whether it then says so about one pattern or several does not matter, nor does a
pattern that is written twice. -/

namespace LintDebt

open FileTree Query

/-- Holds if a call changes nothing and its answer, if there is one, has one report on each file that
was asked about, which tells whether the file fails. A source is looked up in the tree `t`. -/
def Call.Faithful (c : Call) (t : FileTree) (base : Path) (files : List Path)
    (failing : Path → Bool) : Prop :=
  c.after = c.before ∧ ∀ reports, c.answer = .ok reports → ∀ p ∈ files, p.text ∈ c.files →
    (reports.filter fun r => sourcePath t base r.source = .ok p).map Report.errored = [failing p]

instance {c : Call} {t : FileTree} {base : Path} {files : List Path} {failing : Path → Bool} :
    Decidable (c.Faithful t base files failing) :=
  decidable_of_iff (c.after = c.before ∧ ∀ reports ∈ c.answer.toOption,
      ∀ p ∈ files, p.text ∈ c.files →
        (reports.filter fun r => sourcePath t base r.source = .ok p).map Report.errored =
          [failing p]) <| by
    refine and_congr_right fun _ => ?_
    cases c.answer <;> simp [Except.toOption]

namespace Workflow

open Job

/-- Holds for a line whose pattern finds a file that is open and fails. -/
def stillFails (t : FileTree) (s : Settings) (base : Path) (failing : Path → Bool)
    (line : String) : Bool :=
  match Glob.resolvePattern t base (s.patterns.expand line) with
  | .ok files => files.any fun p => Blanket.isOpen t p && failing p
  | .error _ => false

/-- The files that a compression asks about. -/
def openFiles (t : FileTree) (s : Settings) (base : Path) : List Path :=
  match openEntries t s base with
  | .ok entries => entries.files
  | .error _ => []

theorem openFiles_eq {t : FileTree} {s : Settings} {base : Path} {entries : IgnoreList}
    (h : openEntries t s base = .ok entries) : openFiles t s base = entries.files := by
  delta openFiles
  rw [h]

theorem nodup_openFiles {t : FileTree} {s : Settings} {base : Path} {entries : IgnoreList}
    (h : openEntries t s base = .ok entries) : (openFiles t s base).Nodup := by
  rw [openFiles_eq h, IgnoreList.files]
  exact nodup_eraseDups _

variable {σ : Type} {l : Linter σ} {s : Settings} {base list : Path} {failing : Path → Bool}
  {octets : List UInt8} {t t' t₀ : FileTree} {calls asked : List Call} {config : Json.Fields}
  {entries done : List IgnoreList.Entry} {e : IgnoreList.Entry} {lines : List String}
  {reports : List Report} {v : Verdict} {x : Examined} {c : Call}

/-- The verdict on a pattern, if the linter was faithful. -/
theorem Judged.failing_eq_filter (h : Judged t base e reports v)
    (hfaithful : ∀ p ∈ e.files, (reports.filter fun r =>
      sourcePath t base r.source = .ok p).map Report.errored = [failing p]) :
    v.failing = e.files.filter failing := by
  obtain ⟨errored, herrored, hv⟩ := h.errored
  rw [hv]
  refine List.filter_congr fun p hp => ?_
  obtain ⟨r, hr, hfails⟩ : ∃ r, (reports.filter fun r => sourcePath t base r.source = .ok p) = [r] ∧
      r.errored = failing p := by
    have hone := hfaithful p hp
    generalize (reports.filter fun r => sourcePath t base r.source = .ok p) = found at hone ⊢
    obtain ⟨r, rfl, hr⟩ := List.map_eq_singleton_iff.mp hone
    exact ⟨r, rfl, hr⟩
  have hiff : p ∈ errored ↔ failing p = true := by
    have hmem := fun r' => congrArg (r' ∈ ·) hr
    simp only [List.mem_filter, decide_eq_true_eq, List.mem_singleton, eq_iff_iff] at hmem
    rw [mem_of_mapM herrored, ← hfails]
    constructor
    · rintro ⟨r', hr', hsource⟩
      obtain ⟨hmem', herr⟩ := List.mem_filter.mp hr'
      rw [← (hmem r').mp ⟨hmem', hsource⟩]
      exact herr
    · intro herr
      obtain ⟨hmem', hsource⟩ := (hmem r).mpr rfl
      exact ⟨r, List.mem_filter.mpr ⟨hmem', herr⟩, hsource⟩
  rw [Bool.eq_iff_iff, decide_eq_true_eq, hiff]

/-- What is known when some of the patterns were examined by a faithful linter. -/
structure Told (t₀ : FileTree) (list : Path) (failing : Path → Bool)
    (entries done : List IgnoreList.Entry) (x : Examined) (t : FileTree) : Prop where
  tree : t = t₀ ∨ t = bare t₀ list ∧ t.IsTree
  among : ∀ e ∈ done, e ∈ entries
  ok : x.outcome.status = .ok
  nodup : (x.kept.map IgnoreList.Entry.pattern).Nodup
  kept : ∀ f, f ∈ x.kept ↔ f.files ≠ [] ∧ ∃ e ∈ done, f = ⟨e.pattern, e.files.filter failing⟩

theorem Told.add (h : Told t₀ list failing entries done x t)
    (hnodup : (entries.map IgnoreList.Entry.pattern).Nodup) (he : e ∈ entries)
    (htree : t' = t₀ ∨ t' = bare t₀ list ∧ t'.IsTree)
    (hv : v.failing = e.files.filter failing) :
    Told t₀ list failing entries (done ++ [e]) (x.add e v) t' := by
  have hdone : ∀ f ∈ done ++ [e], f ∈ entries := by
    intro f hf
    rcases List.mem_append.mp hf with hf | hf
    · exact h.among f hf
    · rwa [List.mem_singleton.mp hf]
  by_cases hempty : v.failing.isEmpty = true
  · have hadd : (x.add e v).kept = x.kept := by rw [Examined.add, if_pos hempty]
    refine ⟨htree, hdone, h.ok, by rw [hadd]; exact h.nodup, fun f => ?_⟩
    rw [hadd, h.kept]
    refine and_congr_right fun hne => ?_
    constructor
    · rintro ⟨e', he', hf⟩
      exact ⟨e', List.mem_append_left _ he', hf⟩
    · rintro ⟨e', he', rfl⟩
      rcases List.mem_append.mp he' with he' | he'
      · exact ⟨e', he', rfl⟩
      · rw [List.mem_singleton.mp he', ← hv] at hne
        exact absurd (List.isEmpty_iff.mp hempty) hne
  · have hadd : (x.add e v).kept = x.kept.put ⟨e.pattern, v.failing⟩ := by
      rw [Examined.add, if_neg hempty]
    have hput : ∀ f, f ∈ x.kept.put ⟨e.pattern, v.failing⟩ ↔
        f ∈ x.kept ∨ f = ⟨e.pattern, v.failing⟩ := by
      refine fun f => IgnoreList.mem_put fun g hg hpattern => ?_
      obtain ⟨-, e', he', rfl⟩ := (h.kept g).mp hg
      rw [List.inj_on_of_nodup_map hnodup (h.among e' he') he hpattern, hv]
    refine ⟨htree, hdone, h.ok, by rw [hadd]; exact IgnoreList.nodup_put h.nodup, fun f => ?_⟩
    rw [hadd, hput, h.kept]
    constructor
    · rintro (⟨hne, e', he', hf⟩ | rfl)
      · exact ⟨hne, e', List.mem_append_left _ he', hf⟩
      · exact ⟨by simpa using hempty, e, by simp, by rw [hv]⟩
    · rintro ⟨hne, e', he', rfl⟩
      rcases List.mem_append.mp he' with he' | he'
      · exact Or.inl ⟨hne, e', he', rfl⟩
      · rw [List.mem_singleton.mp he', hv]
        exact Or.inr rfl

/-- When all patterns were examined, the ones kept are those that still fail. -/
theorem Told.mem_patterns (h : Told t₀ list failing entries entries x t)
    (hopen : openEntries t₀ s base = .ok entries)
    (hlines : TextFile.lines t₀ (listPath s base) = .ok lines) (line : String) :
    line ∈ x.kept.map IgnoreList.Entry.pattern ↔ line ∈ lines ∧
      IgnoreList.isRemark line = false ∧ stillFails t₀ s base failing line = true := by
  obtain ⟨-, hmem⟩ := mem_openEntries hopen hlines
  have hfails : ∀ files, Glob.resolvePattern t₀ base (s.patterns.expand line) = .ok files →
      (stillFails t₀ s base failing line = true ↔
        (files.filter (Blanket.isOpen t₀)).filter failing ≠ []) := by
    intro files hfiles
    rw [stillFails, hfiles, List.filter_filter, ne_eq, List.filter_eq_nil_iff]
    simp [and_comm]
  rw [List.mem_map]
  constructor
  · rintro ⟨f, hf, rfl⟩
    obtain ⟨hne, e, he, rfl⟩ := (h.kept f).mp hf
    obtain ⟨hline, hremark, -, files, hfiles, heq⟩ := (hmem e).mp he
    refine ⟨hline, hremark, (hfails files hfiles).mpr ?_⟩
    rwa [← heq]
  · rintro ⟨hline, hremark, hstill⟩
    cases hfiles : Glob.resolvePattern t₀ base (s.patterns.expand line) with
    | error f => simp [stillFails, hfiles] at hstill
    | ok files =>
      have hne := (hfails files hfiles).mp hstill
      have hopen' : files.filter (Blanket.isOpen t₀) ≠ [] := by
        intro hnil
        rw [hnil] at hne
        exact hne rfl
      have he : ⟨line, files.filter (Blanket.isOpen t₀)⟩ ∈ entries :=
        (hmem _).mpr ⟨hline, hremark, hopen', files, hfiles, rfl⟩
      exact ⟨_, (h.kept _).mpr ⟨hne, _, he, rfl⟩, rfl⟩

theorem Told.keeps (h : Told t₀ list failing entries entries x t) (line : String) :
    x.kept.keeps line = true ↔ line ∈ x.kept.map IgnoreList.Entry.pattern := by
  rw [IgnoreList.keeps, List.any_eq_true, List.mem_map]
  constructor
  · rintro ⟨f, hf, hline⟩
    exact ⟨f, hf, by simpa using (Bool.and_eq_true_iff.mp hline).1⟩
  · rintro ⟨f, hf, rfl⟩
    have hne := ((h.kept f).mp hf).1
    exact ⟨f, hf, by simpa using hne⟩

/-- What a compression that ended well made of the list with these lines. -/
structure Compression (s : Settings) (base : Path) (failing : Path → Bool) (t t' : FileTree)
    (lines : List String) (o : Outcome) : Prop where
  found : TextFile.lines t (listPath s base) = .ok lines
  written : t'.read (listPath s base).text = .ok (Utf8.encode (IgnoreList.renderLines
    (lines.filter fun line => IgnoreList.isRemark line || stillFails t s base failing line)))
  counted : o.entriesKept = some ((lines.filter fun line =>
    !IgnoreList.isRemark line && stillFails t s base failing line).dedup.length : Int)

/-- Holds of an ending if it is what the faithful linter's compression comes to, as far as the run
ended well. -/
def EndsCompressed (s : Settings) (base : Path) (failing : Path → Bool) (t : FileTree)
    (r : Except Failure Outcome) (t' : FileTree) (x : σ × List Call) : Prop :=
  (∀ c ∈ x.2, c.Faithful (bare t (listPath s base)) base (openFiles t s base) failing) →
    ∀ o, r = .ok o → o.status = .ok → ∃ lines, Compression s base failing t t' lines o

/-- A run that stops at a failure does not end well. -/
theorem settled_endsCompressed {o : Outcome} {f : Failure} {x : σ × List Call} :
    Settled o (EndsCompressed s base failing t) f t' x :=
  settled_of_ok

theorem tree_of_asking {files : List Path} (hask : Asking list config files t asked (.ok reports) t')
    (ht₀ : t₀.IsTree) (hread : t₀.read list.text = .ok octets)
    (h : t = t₀ ∨ t = bare t₀ list ∧ t.IsTree) (hfiles : files ≠ [])
    (hquiet : ∀ c ∈ asked, c.after = c.before) : t' = bare t₀ list ∧ t'.IsTree := by
  rcases h with rfl | ⟨rfl, ht⟩
  · exact ((hask.restored ht₀ hread hquiet).resolve_left fun hnil => hfiles hnil.1).2
  · have hsame := hask.stays ht hread hquiet
    exact ⟨hsame, hsame ▸ ht⟩

theorem Told.asking (h : Told t₀ (listPath s base) failing entries done x t) (ht₀ : t₀.IsTree)
    (hread : t₀.read (listPath s base).text = .ok octets)
    (hopen : openEntries t₀ s base = .ok entries)
    (hnodup : (entries.map IgnoreList.Entry.pattern).Nodup) (he : e ∈ entries)
    (hask : Asking (listPath s base) config e.files t asked (.ok reports) t')
    (hv : Judged t' base e reports v)
    (hcalls : ∀ c ∈ asked,
      c.Faithful (bare t₀ (listPath s base)) base (openFiles t₀ s base) failing) :
    Told t₀ (listPath s base) failing entries (done ++ [e]) (x.add e v) t' := by
  have hfiles : e.files ≠ [] := files_ne_nil_of_openEntries hopen e he
  obtain ⟨htree', ht'⟩ := tree_of_asking hask ht₀ hread h.tree hfiles fun c hc => (hcalls c hc).1
  rcases hask.answer with ⟨hnil, -⟩ | ⟨c, rfl, hasked, hanswer⟩
  · exact absurd hnil hfiles
  refine h.add hnodup he (Or.inr ⟨htree', ht'⟩) (hv.failing_eq_filter fun p hp => ?_)
  have hlisted : p ∈ openFiles t₀ s base := by
    rw [openFiles_eq hopen, IgnoreList.mem_files]
    exact ⟨e, he, hp⟩
  rw [htree']
  exact (hcalls c (by simp)).2 reports hanswer p hlisted (by rw [hasked]; exact List.mem_map_of_mem hp)

/-- The list that is written. -/
theorem Told.renderOver_eq (h : Told t₀ (listPath s base) failing entries entries x t)
    (hopen : openEntries t₀ s base = .ok entries)
    (hlines : TextFile.lines t₀ (listPath s base) = .ok lines) :
    x.kept.renderOver lines = IgnoreList.renderLines
      (lines.filter fun line => IgnoreList.isRemark line || stillFails t₀ s base failing line) := by
  rw [IgnoreList.renderOver]
  refine congrArg IgnoreList.renderLines (List.filter_congr fun line hline => ?_)
  cases hremark : IgnoreList.isRemark line with
  | true => rw [Bool.true_or, Bool.true_or]
  | false =>
    rw [Bool.false_or, Bool.false_or, Bool.eq_iff_iff, h.keeps, h.mem_patterns hopen hlines]
    simp [hline, hremark]

/-- The patterns that are kept are counted once each. -/
theorem Told.length_kept (h : Told t₀ (listPath s base) failing entries entries x t)
    (hopen : openEntries t₀ s base = .ok entries)
    (hlines : TextFile.lines t₀ (listPath s base) = .ok lines) :
    x.kept.length = (lines.filter fun line =>
      !IgnoreList.isRemark line && stillFails t₀ s base failing line).dedup.length := by
  have hperm : (x.kept.map IgnoreList.Entry.pattern).Perm (lines.filter fun line =>
      !IgnoreList.isRemark line && stillFails t₀ s base failing line).dedup := by
    refine (List.perm_ext_iff_of_nodup h.nodup (List.nodup_dedup _)).mpr fun line => ?_
    rw [h.mem_patterns hopen hlines, List.mem_dedup, List.mem_filter]
    simp
  rw [← hperm.length_eq, List.length_map]

/-- What is written, and the count of its patterns. -/
theorem Told.compression {o : Outcome} (h : Told t₀ (listPath s base) failing entries entries x t)
    (hopen : openEntries t₀ s base = .ok entries)
    (hlines : TextFile.lines t₀ (listPath s base) = .ok lines)
    (hread : t'.read (listPath s base).text = .ok (Utf8.encode (x.kept.renderOver lines)))
    (hcount : o.entriesKept = some (x.kept.length : Int)) :
    Compression s base failing t₀ t' lines o :=
  ⟨hlines, by rw [hread, h.renderOver_eq hopen hlines], by rw [hcount, h.length_kept hopen hlines]⟩

variable {w : World (σ × List Call)}

theorem ends_compress (ht : w.tree.IsTree) :
    (compress l.watched s base).Ends w (EndsCompressed s base failing w.tree) := by
  refine ends_compress_of (fun _ _ _ => settled_endsCompressed)
    fun stats config lines entries hprepared log => ?_
  obtain ⟨-, hlines, -, hopen⟩ := hprepared
  obtain ⟨octets, hread⟩ := TextFile.read_of_lines hlines
  obtain ⟨hnodup, -⟩ := mem_openEntries hopen hlines
  refine ends_examine (fun done x t calls =>
      (∀ c ∈ calls, c.Faithful (bare w.tree (listPath s base)) base (openFiles w.tree s base)
        failing) → Told w.tree (listPath s base) failing entries done x t) entries ?_ ?_ ?_ _ _
    fun _ => ⟨Or.inl rfl, by simp, rfl, by simp, by simp⟩
  · intro done e he x t calls hx asked answer t' hask f state
    exact settled_endsCompressed
  · intro done e he x t calls hx asked reports t' v hask hv hfaithful
    exact (hx fun c hc => hfaithful c (List.mem_append_left _ hc)).asking ht hread hopen hnodup he
      hask hv fun c hc => hfaithful c (List.mem_append_right _ hc)
  intro x w' hx
  refine ends_finish (fun _ _ => settled_endsCompressed) (fun _ _ _ _ _ _ _ => settled_endsCompressed)
    fun t hwrite asked remaining t' hask state =>
      ⟨fun _ _ => settled_endsCompressed, fun stats' hstats => ?_⟩
  intro hfaithful o ho _
  cases ho
  have htold := hx fun c hc => hfaithful c (List.mem_append_left _ hc)
  have ht₁ : w'.tree.IsTree := by
    rcases htold.tree with heq | ⟨-, htree⟩
    · rwa [heq]
    · exact htree
  -- The list is read where it was written, in a tree that lost at most its hidden path.
  obtain ⟨new, hnew⟩ := TextFile.read_of_measure hstats
  have hwritten := read_of_write hwrite
  have hsame : t.read (listPath s base).text = .ok new := by
    rcases hask.restored (ht₁.write hwrite) hwritten fun c hc =>
      (hfaithful c (List.mem_append_right _ hc)).1 with ⟨-, -, heq⟩ | ⟨-, heq, -⟩
    · rwa [← heq]
    · exact read_of_bare (heq ▸ hnew)
  rw [hwritten] at hsame
  cases hsame
  exact ⟨lines, htold.compression hopen hlines hnew rfl⟩

/-- A compression by a faithful linter that ends well keeps exactly the lines that say nothing or
still fail. -/
theorem compression_of_ok (l : Linter σ) (s : Settings) (base : Path) (w : World σ)
    (failing : Path → Bool) {o : Outcome} (ht : w.tree.IsTree)
    (hcalls : ∀ c ∈ Task.compress.calls l s base w,
      c.Faithful (bare w.tree (listPath s base)) base (openFiles w.tree s base) failing)
    (ho : ((compress l s base).runFrom w).1 = .ok o) (hok : o.status = .ok) :
    ∃ lines, Compression s base failing w.tree ((compress l s base).runFrom w).2.tree lines o :=
  Task.compress.of_watched l s base w (P := fun r t calls =>
    (∀ c ∈ calls, c.Faithful (bare w.tree (listPath s base)) base (openFiles w.tree s base)
      failing) → ∀ o, r = .ok o → o.status = .ok →
        ∃ lines, Compression s base failing w.tree t lines o)
    (ends_compress ht) hcalls o ho hok

theorem compression_of_ok_sample : ∃ o lines,
    Compression .standard Sample.base (fun _ => true) Sample.tree
      ((compress Sample.strict .standard Sample.base).runFrom Sample.world).2.tree lines o := by
  have hrun : ((compress Sample.strict .standard Sample.base).runFrom Sample.world).1.map
      Outcome.status = .ok .ok := by
    decide +kernel
  obtain ⟨o, ho, hok⟩ := map_eq_ok.mp hrun
  exact ⟨o, compression_of_ok Sample.strict .standard Sample.base Sample.world (fun _ => true)
    (by decide +kernel) (by decide +kernel) ho hok⟩

end Workflow
end LintDebt
