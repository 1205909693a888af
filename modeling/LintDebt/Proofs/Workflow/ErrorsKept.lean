import LintDebt.Proofs.Workflow.Counting

/-! # A compression loses no errors

By a linter that fails the files with errors, and no others, the files that a compression keeps have all
errors: the last question, about those files only, comes to the count that the questions about all
patterns came to. For that the linter must not read the list itself, which is another one by then. -/

namespace LintDebt

open FileTree Query

namespace FileTree

variable {t : FileTree} {l : Location} {old new : List UInt8} {path : String}

/-- A change of one file is not seen where another is read. -/
theorem read_put_of_target? (hl : l ≠ []) (hn : t.node? l = some (.file old))
    (hother : (∃ octets, t.read path = .ok octets) → t.target? path ≠ some l) :
    ((t.put l (.file new)).read path).toOption = (t.read path).toOption := by
  have hne : t.target? path ≠ some l := fun heq => hother ⟨old, read_of_target? heq hn⟩ heq
  have hstat : t.stat path = (t.put l (.file new)).stat path :=
    (SameShape.put hl hn new).stat_eq fun k hk => by
      rw [node?_put hl, if_neg]
      rintro rfl
      exact hne hk
  rw [read, read, hstat]

end FileTree

/-- Holds if a file fails exactly if an error is found in it. -/
def View.Candid (view : View) : Prop :=
  ∀ config content, (view config content).1 = true ↔ 0 < errorCount (view config content).2

namespace Workflow

open Job

/-- Holds if none of the files that the linter is asked about is the list, neither where the list leads
to nor where it is hidden. -/
def ListUnread (t : FileTree) (s : Settings) (base : Path) : Prop :=
  let list := listPath s base
  ∀ p ∈ openFiles t s base, (∃ octets, (shown t list).read p.text = .ok octets) →
    (shown t list).target? p.text ≠ t.target? list.text ∧ ∀ hidden, hiddenPath list = .ok hidden →
      (shown t list).target? p.text ≠ (shown t list).target? hidden.text

instance {t : FileTree} {s : Settings} {base : Path} : Decidable (ListUnread t s base) :=
  decidable_of_iff (∀ p ∈ openFiles t s base, ((shown t (listPath s base)).read p.text).toOption.isSome →
    (shown t (listPath s base)).target? p.text ≠ t.target? (listPath s base).text ∧
      ∀ hidden ∈ (hiddenPath (listPath s base)).toOption, (shown t (listPath s base)).target? p.text ≠
        (shown t (listPath s base)).target? hidden.text) <| by
    simp only [Option.isSome_iff_exists, ← Option.mem_def, mem_toOption]
    rfl

variable {σ : Type} {l : Linter σ} {s : Settings} {base : Path} {view : View} {t t' t₀ t₁ : FileTree}
  {config : Json.Fields} {find : Path → Finding} {files : List Path} {octets new : List UInt8}
  {calls : List Call} {reports : List Report} {lines : List String} {entries : IgnoreList}

/-- The files that do not fail have no errors. -/
theorem errorTotal_filter (h : ∀ p ∈ files, (find p).1 = true ↔ 0 < errorCount (find p).2) :
    errorTotal find (files.filter fun p => (find p).1) = errorTotal find files := by
  induction files with
  | nil => rfl
  | cons p rest ih =>
    obtain ⟨hp, hrest⟩ := List.forall_mem_cons.mp h
    rw [List.filter_cons, errorTotal_cons, ← ih hrest]
    split
    · exact errorTotal_cons
    · next hno => rw [Nat.eq_zero_of_not_pos fun hpos => hno (hp.mpr hpos), Nat.zero_add]

theorem finding_congr {p q : Path} (h : p.text = q.text) :
    finding view config t p = finding view config t q := by
  rw [finding, finding, h]

/-- The files that are left are those that fail. -/
theorem Told.mem_files_kept {list p : Path} {failing : Path → Bool} {x : Examined}
    (h : Told t list failing entries entries x t') :
    p ∈ x.kept.files ↔ (∃ e ∈ entries, p ∈ e.files) ∧ failing p = true := by
  rw [IgnoreList.mem_files]
  constructor
  · rintro ⟨f, hf, hp⟩
    obtain ⟨-, e, he, rfl⟩ := (h.kept f).mp hf
    obtain ⟨hp, hfails⟩ := List.mem_filter.mp hp
    exact ⟨⟨e, he, hp⟩, hfails⟩
  · rintro ⟨⟨e, he, hp⟩, hfails⟩
    have hp' : p ∈ e.files.filter failing := List.mem_filter.mpr ⟨hp, hfails⟩
    exact ⟨_, (h.kept _).mpr ⟨List.ne_nil_of_mem hp', e, he, rfl⟩, hp'⟩

/-- The last question finds the same in the files that it is about. -/
theorem rated_of_last_asking {list : Path} {all : List Path}
    (hask : Asking list config files t₁ calls (.ok reports) t')
    (hcleared : files ≠ [] → Cleared t list t₀) (ht : t.IsTree)
    (hread : t.read list.text = .ok octets) (hwrite : t₀.write list.text new = .ok t₁)
    (hcalls : ∀ c ∈ calls, c.Rates (bare t list) base all view)
    (hback : ∃ old, t'.read list.text = .ok old)
    (hunread : ∀ p ∈ all, (∃ octets, (shown t list).read p.text = .ok octets) →
      (shown t list).target? p.text ≠ t.target? list.text ∧ ∀ hidden, hiddenPath list = .ok hidden →
        (shown t list).target? p.text ≠ (shown t list).target? hidden.text) :
    Rated (bare t list) base all (files.map Path.text) (finding view config (shown t list)) reports := by
  by_cases hfiles : files = []
  · rw [hfiles] at hask ⊢
    obtain ⟨-, hreports, -⟩ := hask.of_nil
    cases hreports
    exact ⟨by simp, by simp⟩
  obtain ⟨y, old, hy, hplace, hbefore⟩ := hask.shows_written (hcleared hfiles) ht hread hwrite
    (fun c hc => (hcalls c hc).1) hfiles hback
  obtain ⟨c, rfl, hnames, hanswer⟩ := (hask.answer).resolve_left fun hidle => hfiles hidle.1
  have hc : c ∈ [c] := List.mem_singleton_self c
  have hrated := (hcalls c hc).2 reports hanswer
  rw [hnames] at hrated
  refine hrated.congr fun p hp _ => ?_
  have hne : y ≠ [] := by
    rintro rfl
    cases hy
  rw [finding, (hask.asked c hc).1, hbefore c hc, read_put_of_target? hne hy fun hfound => ?_]
  obtain ⟨hlist, hhidden⟩ := hunread p hp hfound
  rcases hplace with heq | ⟨hidden, hconcealed, heq⟩
  · rw [← heq]
    exact hlist
  · rw [← heq]
    exact hhidden hidden hconcealed

/-- What is known when some of the patterns were examined: what was found in their files, and which of
them fail. -/
structure Weighed (t₀ : FileTree) (list : Path) (find : Path → Finding) (all : List Path)
    (entries done : List IgnoreList.Entry) (x : Examined) (t : FileTree) : Prop where
  counted : Counted t₀ list find all done x t
  told : Told t₀ list (fun p => (find p).1) entries done x t
  cleared : done ≠ [] → Cleared t₀ list t

theorem Weighed.start (t : FileTree) (list : Path) (find : Path → Finding) (all : List Path)
    (entries : List IgnoreList.Entry) (stats : Option Counts) :
    Weighed t list find all entries [] ⟨begun stats, [], []⟩ t where
  counted := ⟨Or.inl rfl, rfl, by simp, by simp, by simp⟩
  told := ⟨Or.inl rfl, by simp, rfl, by simp, by simp⟩
  cleared := fun hne => absurd rfl hne

theorem Weighed.asking {done : List IgnoreList.Entry} {e : IgnoreList.Entry} {v : Verdict} {x : Examined}
    (h : Weighed t₀ (listPath s base) (finding view config (shown t₀ (listPath s base)))
      (openFiles t₀ s base) entries done x t) (ht : t₀.IsTree)
    (hread : t₀.read (listPath s base).text = .ok octets) (hopen : openEntries t₀ s base = .ok entries)
    (hpatterns : (entries.map IgnoreList.Entry.pattern).Nodup) (he : e ∈ entries)
    (hask : Asking (listPath s base) config e.files t calls (.ok reports) t') (hv : Judged t' base e reports v)
    (hcalls : ∀ c ∈ calls, c.Rates (bare t₀ (listPath s base)) base (openFiles t₀ s base) view) :
    Weighed t₀ (listPath s base) (finding view config (shown t₀ (listPath s base))) (openFiles t₀ s base)
      entries (done ++ [e]) (x.add e v) t' := by
  have hcleared := hask.cleared ⟨reports, rfl⟩ h.counted.tree ht hread (fun c hc => (hcalls c hc).1)
    (files_ne_nil_of_openEntries hopen e he)
  have hrated := rated_of_asking hask h.counted.tree ht hread hcalls
  have hsub : ∀ p ∈ e.files, p ∈ openFiles t₀ s base := by
    intro p hp
    rw [openFiles_eq hopen, IgnoreList.mem_files]
    exact ⟨e, he, hp⟩
  refine ⟨h.counted.add hcleared hv hsub hrated, h.told.add hpatterns he
    (Or.inr ⟨hcleared.eq_bare, hcleared.isTree ht⟩) (hv.failing_eq_filter fun p hp => ?_),
    fun _ => hcleared⟩
  obtain ⟨r, hone, hr⟩ := hrated.exists_report (hsub p hp) (List.mem_map_of_mem hp)
  rw [hcleared.eq_bare, hone, ← hr]
  rfl

/-- When all patterns were examined, both counts are the errors of the files that fail. -/
theorem Weighed.countErrors_eq {x : Examined} (h : Weighed t₀ (listPath s base)
      (finding view config (shown t₀ (listPath s base))) (openFiles t₀ s base) entries entries x t)
    (hcandid : view.Candid) (hopen : openEntries t₀ s base = .ok entries)
    (hrated : Rated (bare t₀ (listPath s base)) base (openFiles t₀ s base) (x.kept.files.map Path.text)
      (finding view config (shown t₀ (listPath s base))) reports) :
    countErrors (x.reports.map Prod.snd) = countErrors reports := by
  have hnodup := nodup_openFiles hopen
  have hfiles : ∀ p, p ∈ openFiles t₀ s base ↔ ∃ e ∈ entries, p ∈ e.files := by
    intro p
    rw [openFiles_eq hopen, IgnoreList.mem_files]
  have hfails : ∀ p, (finding view config (shown t₀ (listPath s base)) p).1 = true ↔
      0 < errorCount (finding view config (shown t₀ (listPath s base)) p).2 := fun p => hcandid config _
  rw [h.counted.countErrors_eq hnodup fun p hp => (hfiles p).mp hp,
    ← errorTotal_filter fun p _ => hfails p, hrated.countErrors_eq hnodup]
  refine congrArg (errorTotal _) (List.filter_congr fun p hp => ?_)
  rw [Bool.eq_iff_iff, decide_eq_true_eq, List.mem_map]
  constructor
  · exact fun hfails => ⟨p, h.told.mem_files_kept.mpr ⟨(hfiles p).mp hp, hfails⟩, rfl⟩
  · rintro ⟨q, hq, htext⟩
    rw [finding_congr htext.symm]
    exact (h.told.mem_files_kept.mp hq).2

variable {w : World (σ × List Call)}

theorem ends_compress_kept (ht : w.tree.IsTree) (hcandid : view.Candid)
    (hunread : ListUnread w.tree s base) : (compress l.watched s base).Ends w fun r _ x =>
      (∀ c ∈ x.2, c.Rates (bare w.tree (listPath s base)) base (openFiles w.tree s base) view) →
        ∀ o, r = .ok o → o.status = .ok → ∃ n, o.errorsBefore = some n ∧ o.errorsAfter = some n := by
  refine ends_compress_of (fun _ _ _ => settled_of_ok)
    fun stats config lines entries hprepared log => ?_
  obtain ⟨octets, hread⟩ := TextFile.read_of_lines hprepared.found
  have hopen := hprepared.opened
  obtain ⟨hpatterns, -⟩ := mem_openEntries hopen hprepared.found
  refine ends_examine (fun done x t calls =>
      (∀ c ∈ calls, c.Rates (bare w.tree (listPath s base)) base (openFiles w.tree s base) view) →
        Weighed w.tree (listPath s base) (finding view config (shown w.tree (listPath s base)))
          (openFiles w.tree s base) entries done x t) entries ?_ ?_ ?_ _ _ fun _ => .start _ _ _ _ _ _
  · intro done e he x t calls hx asked answer t' hask f state
    exact settled_of_ok
  · intro done e he x t calls hx asked reports t' v hask hv hcalls
    exact (hx fun c hc => hcalls c (List.mem_append_left _ hc)).asking ht hread hopen hpatterns he hask hv
      fun c hc => hcalls c (List.mem_append_right calls hc)
  intro x w' hx
  refine ends_finish (fun _ _ => settled_of_ok) (fun _ _ _ _ _ _ _ => settled_of_ok)
    fun t hwrite asked remaining t' hask state => ⟨fun _ _ => settled_of_ok, fun stats' hstats => ?_⟩
  intro hcalls o ho _
  cases ho
  have hweighed := hx fun c hc => hcalls c (List.mem_append_left _ hc)
  have hdone : x.kept.files ≠ [] → entries ≠ [] := by
    intro hne
    obtain ⟨p, hp⟩ := List.exists_mem_of_ne_nil _ hne
    obtain ⟨⟨e, he, -⟩, -⟩ := hweighed.told.mem_files_kept.mp hp
    exact List.ne_nil_of_mem he
  refine ⟨_, rfl, congrArg some (congrArg Nat.cast (hweighed.countErrors_eq hcandid hopen ?_).symm)⟩
  exact rated_of_last_asking hask (fun hne => hweighed.cleared (hdone hne)) ht hread hwrite
    (fun c hc => hcalls c (List.mem_append_right _ hc)) (TextFile.read_of_measure hstats) hunread

/-- A compression that ends well by a linter that finds the same in a file each time, and fails those
with errors, counts as many errors after it as before, if no file that the linter is asked about is the
list. -/
theorem errors_kept_of_ok (l : Linter σ) (s : Settings) (base : Path) (w : World σ) (view : View)
    {o : Outcome} (ht : w.tree.IsTree) (hcandid : view.Candid) (hunread : ListUnread w.tree s base)
    (hcalls : ∀ c ∈ Task.compress.calls l s base w,
      c.Rates (bare w.tree (listPath s base)) base (openFiles w.tree s base) view)
    (ho : ((compress l s base).runFrom w).1 = .ok o) (hok : o.status = .ok) :
    ∃ n, o.errorsBefore = some n ∧ o.errorsAfter = some n :=
  Task.compress.of_watched l s base w (P := fun r _ calls =>
    (∀ c ∈ calls, c.Rates (bare w.tree (listPath s base)) base (openFiles w.tree s base) view) →
      ∀ o, r = .ok o → o.status = .ok → ∃ n, o.errorsBefore = some n ∧ o.errorsAfter = some n)
    (ends_compress_kept ht hcandid hunread) hcalls o ho hok

/-- What `Sample.perLine` finds in a file. -/
def perLineView : View := fun _ content =>
  let n := (content.getD []).count 10
  (0 < n, List.replicate n ⟨.error, 1, 1, Text.unitsOf "rule", []⟩)

theorem candid_perLineView : perLineView.Candid := by
  intro config content
  simp [perLineView, errorCount, List.countP_replicate]

/-- A stylesheet without errors is dropped, and one that two patterns find is kept. -/
theorem errors_kept_of_ok_sample :
    let w : World Unit := ⟨(Sample.tree.put ["b.css"] (.file (Sample.octets "b"))).put
      [".stylelintignore"] (.file (Sample.octets "a.css\nb.css\n*a.css\n")), (), []⟩
    ∃ o, ((compress Sample.perLine .standard Sample.base).runFrom w).1 = .ok o ∧ o.status = .ok ∧
      ∃ n, o.errorsBefore = some n ∧ o.errorsAfter = some n := by
  intro w
  obtain ⟨o, ho, hok⟩ : ∃ o, ((compress Sample.perLine .standard Sample.base).runFrom w).1 = .ok o ∧
      o.status = .ok :=
    ⟨⟨"compress", .ok, some 1, some 1, 3, some 2, some [("size", 19), ("length", 4)],
      some [("size", 13), ("length", 3)], []⟩, by decide +kernel, rfl⟩
  exact ⟨o, ho, hok, errors_kept_of_ok Sample.perLine .standard Sample.base w perLineView
    (by decide +kernel) candid_perLineView (by decide +kernel) (by decide +kernel) ho hok⟩

/-- A list that is a link to a stylesheet has fewer lines and so fewer errors afterwards. So has one that
was hidden where a link to a stylesheet led. -/
theorem errors_lost_sample : perLineView.Candid ∧
    (let w : World Unit := ⟨(Sample.tree.put [".stylelintignore"] (.link "list.css")).put ["list.css"]
        (.file (Sample.octets "list.css\nb.css\n")), (), []⟩
     w.tree.IsTree ∧
      (∀ c ∈ Task.compress.calls Sample.perLine .standard Sample.base w,
        c.Rates (bare w.tree (listPath .standard Sample.base)) Sample.base
          (openFiles w.tree .standard Sample.base) perLineView) ∧
      ((compress Sample.perLine .standard Sample.base).runFrom w).1.map (fun o =>
        (o.status, o.errorsBefore, o.errorsAfter)) = .ok (.ok, some 2, some 1)) ∧
    let w : World Unit := ⟨((Sample.tree.put [".stylelintignore"] (.file (Sample.octets "x.css\nb.css\n"))).put
      [".stylelintignore.slim-hidden"] (.file (Sample.octets "a\n"))).put
        ["x.css"] (.link ".stylelintignore.slim-hidden"), (), []⟩
    w.tree.IsTree ∧
      (∀ c ∈ Task.compress.calls Sample.perLine .standard Sample.base w,
        c.Rates (bare w.tree (listPath .standard Sample.base)) Sample.base
          (openFiles w.tree .standard Sample.base) perLineView) ∧
      ((compress Sample.perLine .standard Sample.base).runFrom w).1.map (fun o =>
        (o.status, o.errorsBefore, o.errorsAfter)) = .ok (.ok, some 2, some 1) :=
  ⟨candid_perLineView, by decide +kernel, by decide +kernel⟩

end Workflow
end LintDebt
