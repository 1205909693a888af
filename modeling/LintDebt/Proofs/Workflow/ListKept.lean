import LintDebt.Proofs.Query.Keeping
import LintDebt.Proofs.Workflow.Compressing
import LintDebt.Proofs.Workflow.Eliminating
import LintDebt.Proofs.Workflow.Sample

/-! # The ignore list through a run

A run of either workflow finds the list at its place, shows the linter only its hidden path, and
leaves the list at its place however it ends: with the content that it had, or with the one that the
workflow writes. The calls before that write saw the old content and the calls after it the new one.
What is asked of the linter is that it leaves the two places alone, and that it reports nothing on
the list itself, which a run that annotates files would annotate. -/

namespace LintDebt

open FileTree Query

/-- Those of some files that a call reported as failing. -/
def Call.failing (c : Call) (base : Path) (files : List Path) : List Path :=
  match c.answer with
  | .error _ => []
  | .ok reports => match erroredSources c.after base reports with
    | .error _ => []
    | .ok errored => files.filter (· ∈ errored)

namespace Workflow

open Job

/-- The patterns that keep files when each is asked about in one call. -/
def keptBy (base : Path) (entries : List IgnoreList.Entry) (calls : List Call) : IgnoreList :=
  (entries.zip calls).foldl (fun kept (e, c) =>
    let failing := c.failing base e.files
    if failing.isEmpty then kept else kept.put ⟨e.pattern, failing⟩) []

namespace Task

/-- What a run may write into the list, given the tree that it started from and the calls that it
made before it wrote. -/
def Writes (task : Task) (s : Settings) (base : Path) (t : FileTree) (before : List Call)
    (new : List UInt8) : Prop :=
  match task with
  | compress => ∃ lines entries, TextFile.lines t (listPath s base) = .ok lines ∧
      openEntries t s base = .ok entries ∧
      before.map Call.files = entries.map (fun e => e.files.map Path.text) ∧
      new = Utf8.encode ((keptBy base entries before).renderOver lines)
  | eliminate _ => new = []

/-- The list through a run from `t` to `t'`, with the calls before and after it was written. -/
structure KeepsList (task : Task) (s : Settings) (base hidden : Path) (octets : List UInt8)
    (t t' : FileTree) (before after : List Call) (now : List UInt8) : Prop where
  hiddenOld : ∀ c ∈ before, OutOfSight c.before (listPath s base) hidden octets
  hiddenNow : ∀ c ∈ after, OutOfSight c.before (listPath s base) hidden now
  place : InPlace t' (listPath s base) hidden now
  content : now = octets ∨ task.Writes s base t before now

end Task

variable {σ : Type} {l : Linter σ} {s : Settings} {base hidden : Path} {octets now : List UInt8}
  {t t' : FileTree} {calls before : List Call} {task : Task}

/-- A list that was kept all the time was not written. -/
theorem Task.KeepsList.of_kept (hcalls : ∀ c ∈ calls, c.Discreet base (listPath s base) hidden)
    (h : Kept base (listPath s base) hidden octets [] t' calls) :
    task.KeepsList s base hidden octets t t' calls [] octets := by
  obtain ⟨later, rfl, h⟩ := h
  obtain ⟨hplace, hsight⟩ := h hcalls
  exact ⟨hsight, by simp, hplace, Or.inl rfl⟩

/-- A list that was kept until it was written, and from then on. -/
theorem Task.KeepsList.of_written {t₁ : FileTree}
    (hcalls : ∀ c ∈ calls, c.Discreet base (listPath s base) hidden)
    (h : Kept base (listPath s base) hidden octets [] t₁ before)
    (hwrites : (∀ c ∈ before, c.Discreet base (listPath s base) hidden) →
      task.Writes s base t before now)
    (h' : Kept base (listPath s base) hidden now before t' calls) :
    ∃ after, calls = before ++ after ∧ task.KeepsList s base hidden octets t t' before after now := by
  obtain ⟨after, rfl, h'⟩ := h'
  have hbefore : ∀ c ∈ before, c.Discreet base (listPath s base) hidden :=
    fun c hc => hcalls c (List.mem_append_left _ hc)
  obtain ⟨hplace, hafter⟩ := h' hcalls
  obtain ⟨later, hlater, h⟩ := h
  obtain rfl : before = later := hlater
  exact ⟨after, rfl, (h hbefore).2, hafter, hplace, Or.inr (hwrites hbefore)⟩

theorem keptBy_concat {entries : List IgnoreList.Entry} (hlen : entries.length = calls.length)
    (e : IgnoreList.Entry) (c : Call) :
    keptBy base (entries ++ [e]) (calls ++ [c]) =
      if (c.failing base e.files).isEmpty then keptBy base entries calls
      else (keptBy base entries calls).put ⟨e.pattern, c.failing base e.files⟩ := by
  rw [keptBy, List.zip_append hlen, List.foldl_append]
  rfl

theorem SameWays.erroredSources (h : SameWays t t') (reports : List Report) :
    erroredSources t base reports = erroredSources t' base reports := by
  simp only [LintDebt.erroredSources, h.sourcePath]

/-- A verdict of the run is one of the call. -/
theorem Judged.failing_eq {e : IgnoreList.Entry} {reports : List Report} {v : Verdict} {c : Call}
    (h : Judged t base e reports v) (hanswer : c.answer = .ok reports)
    (hways : SameWays c.after t) : v.failing = c.failing base e.files := by
  obtain ⟨errored, herrored, hfailing⟩ := h.errored
  rw [← SameWays.erroredSources hways] at herrored
  rw [Call.failing, hanswer]
  simp only [herrored, hfailing]

/-- What is known about the list while the patterns of it are examined. -/
structure ExaminedKept (base list hidden : Path) (octets : List UInt8)
    (done : List IgnoreList.Entry) (x : Examined) (t : FileTree) (calls : List Call) : Prop where
  stays : Kept base list hidden octets [] t calls
  asked : calls.map Call.files = done.map (fun e => e.files.map Path.text)
  kept : (∀ c ∈ calls, c.Discreet base list hidden) → x.kept = keptBy base done calls

theorem ExaminedKept.add {config : Json.Fields} {done : List IgnoreList.Entry}
    {e : IgnoreList.Entry} {x : Examined} {asked : List Call} {reports : List Report} {v : Verdict}
    {list : Path} (h : ExaminedKept base list hidden octets done x t calls)
    (hhidden : hiddenPath list = .ok hidden) (hfiles : e.files ≠ [])
    (hask : Asking list config e.files t asked (.ok reports) t')
    (hv : Judged t' base e reports v) :
    ExaminedKept base list hidden octets (done ++ [e]) (x.add e v) t' (calls ++ asked) := by
  rcases hask.answer with ⟨hnil, -⟩ | ⟨c, rfl, hcfiles, hanswer⟩
  · exact absurd hnil hfiles
  refine ⟨h.stays.asking hhidden hask, ?_, fun hcalls => ?_⟩
  · rw [List.map_append, List.map_append, h.asked]
    simp [hcfiles]
  · have hlen : done.length = calls.length := by
      simpa using (congrArg List.length h.asked).symm
    have hbefore : ∀ c ∈ calls, c.Discreet base list hidden :=
      fun c hc => hcalls c (List.mem_append_left _ hc)
    have hways := ((hask.inPlace (h.stays.inPlace hbefore) hhidden
      fun c hc => (hcalls c (List.mem_append_right _ hc)).toLeavesAlone).2 c (by simp)).2
    rw [keptBy_concat hlen, Examined.add, ← h.kept hbefore, hv.failing_eq hanswer hways]

/-- Holds of a tree and the calls so far if the list was kept, provided the linter left it alone. -/
def ListGuarded (task : Task) (s : Settings) (base hidden : Path) (octets : List UInt8)
    (t t' : FileTree) (calls : List Call) : Prop :=
  (∀ c ∈ calls, c.Discreet base (listPath s base) hidden) →
    ∃ before after now, calls = before ++ after ∧
      task.KeepsList s base hidden octets t t' before after now

theorem ListGuarded.of_kept (h : Kept base (listPath s base) hidden octets [] t' calls) :
    ListGuarded task s base hidden octets t t' calls :=
  fun hcalls => ⟨calls, [], octets, (List.append_nil _).symm,
    Task.KeepsList.of_kept hcalls h⟩

theorem ListGuarded.of_written {t₁ : FileTree}
    (h : Kept base (listPath s base) hidden octets [] t₁ before)
    (hwrites : (∀ c ∈ before, c.Discreet base (listPath s base) hidden) →
      task.Writes s base t before now)
    (h' : Kept base (listPath s base) hidden now before t' calls) :
    ListGuarded task s base hidden octets t t' calls := by
  intro hcalls
  obtain ⟨after, hafter, hkeeps⟩ :=
    Task.KeepsList.of_written hcalls h hwrites h'
  exact ⟨before, after, now, hafter, hkeeps⟩

variable {w : World (σ × List Call)}

theorem ends_compress_guarded (hhidden : hiddenPath (listPath s base) = .ok hidden)
    (hplace : InPlace w.tree (listPath s base) hidden octets) (hcalls : w.state.2 = []) :
    (compress l.watched s base).Ends w fun _ t x =>
      ListGuarded .compress s base hidden octets w.tree t x.2 := by
  have hstart : Kept base (listPath s base) hidden octets [] w.tree w.state.2 := by
    rw [hcalls]
    exact Kept.refl fun _ => hplace
  refine ends_compress_of (fun _ _ _ => .of_forall fun _ => .of_kept hstart)
    fun stats config lines entries hprepared log => ?_
  have hfiles := files_ne_nil_of_openEntries hprepared.opened
  refine ends_examine (ExaminedKept base (listPath s base) hidden octets) entries ?_ ?_ ?_ _ _
    ⟨hstart, by simp [hcalls], fun _ => by simp [hcalls, keptBy]⟩
  · intro done e _ x t calls hx asked answer t' hask f state
    exact .of_forall fun _ => .of_kept (hx.stays.asking hhidden hask)
  · intro done e he x t calls hx asked reports t' v hask hv
    exact hx.add hhidden (hfiles e he) hask hv
  intro x w' hx
  have hwrites : (∀ c ∈ w'.state.2, c.Discreet base (listPath s base) hidden) →
      Task.compress.Writes s base w.tree w'.state.2 (Utf8.encode (x.kept.renderOver lines)) := by
    intro hleaves
    exact ⟨lines, entries, hprepared.found, hprepared.opened, hx.asked, by rw [hx.kept hleaves]⟩
  have hlast : ∀ {t asked r t'},
      w'.tree.write (listPath s base).text (Utf8.encode (x.kept.renderOver lines)) = .ok t →
      Asking (listPath s base) config x.kept.files t asked r t' →
      ListGuarded .compress s base hidden octets w.tree t' (w'.state.2 ++ asked) := by
    intro t asked r t' hwrite hask
    have hwritten : Kept base (listPath s base) hidden (Utf8.encode (x.kept.renderOver lines)) w'.state.2
        t w'.state.2 :=
      Kept.refl fun hleaves => (hx.stays.inPlace hleaves).write hwrite
    exact .of_written hx.stays hwrites (hwritten.asking hhidden hask)
  exact ends_finish (fun _ _ => .of_forall fun _ => .of_kept hx.stays)
    (fun _ hwrite _ _ _ hask _ => .of_forall fun _ => hlast hwrite hask)
    fun _ hwrite _ _ _ hask _ =>
      ⟨fun _ _ => .of_forall fun _ => hlast hwrite hask, fun _ _ => hlast hwrite hask⟩

theorem ends_eliminate_guarded {style : Suppression.Style}
    (hhidden : hiddenPath (listPath s base) = .ok hidden)
    (hplace : InPlace w.tree (listPath s base) hidden octets) (hcalls : w.state.2 = []) :
    (eliminate l.watched s base style).Ends w fun _ t x =>
      ListGuarded (.eliminate style) s base hidden octets w.tree t x.2 := by
  have hstart : Kept base (listPath s base) hidden octets [] w.tree [] := Kept.refl fun _ => hplace
  refine ends_eliminate_of hcalls ends_true (fun _ _ _ _ => .of_forall fun _ => .of_kept hstart)
    (fun _ _ _ _ _ _ _ hask _ => .of_forall fun _ => .of_kept (hstart.asking hhidden hask))
    fun config files _ asked reports t state hask _ log => ?_
  have hasked : Kept base (listPath s base) hidden octets [] t asked := hstart.asking hhidden hask
  have hafter : (∀ c ∈ asked, c.Discreet base (listPath s base) hidden) →
      InPlace t (listPath s base) hidden octets ∧ ∀ c ∈ asked, SameWays c.after t := by
    intro hdiscreet
    obtain ⟨hplace', hsights⟩ :=
      hask.inPlace hplace hhidden fun c hc => (hdiscreet c hc).toLeavesAlone
    exact ⟨hplace', fun c hc => (hsights c hc).2⟩
  -- The list is at its place while the files are annotated, as no report is about it.
  have hannotate : (annotateAll base style (assessed reports) reports).Ends ⟨t, (state, asked), log⟩
      fun _ t₁ _ => (∀ c ∈ asked, c.Discreet base (listPath s base) hidden) →
        InPlace t₁ (listPath s base) hidden octets := by
    refine (ends_annotateAll_standing (fun hdiscreet => (hafter hdiscreet).1.toStanding)
      fun hdiscreet r hr => ?_).mono fun _ t₁ _ hstanding hdiscreet => ?_
    · rcases hask.answer with ⟨-, -, rfl, -⟩ | ⟨c, rfl, -, hanswer⟩
      · cases hr
      · exact ⟨c, (hdiscreet c (by simp)).spares, hanswer, (hafter hdiscreet).2 c (by simp)⟩
    · obtain ⟨hstanding₁, hkeep⟩ := hstanding hdiscreet
      exact ⟨hstanding₁, hkeep _ (hafter hdiscreet).1.hidden⟩
  refine ends_work hannotate (fun _ t₁ hplace₁ => .of_kept (hasked.between hplace₁))
    (fun _ _ t₁ _ hplace₁ _ _ _ => .of_forall fun _ => .of_kept (hasked.between hplace₁))
    fun _ _ t₁ _ hplace₁ t₂ htruncated _ =>
      ends_recount.mono fun _ t' y ⟨later, _, hlater, hask', _⟩ => ?_
  rw [hlater]
  have hannotated : Kept base (listPath s base) hidden octets [] t₁ asked := hasked.between hplace₁
  cases htruncated with
  | emptied _ hwrite =>
    have hwritten : Kept base (listPath s base) hidden [] asked t₂ asked :=
      Kept.refl fun hdiscreet => (hplace₁ hdiscreet).write hwrite
    exact .of_written hannotated (fun _ => rfl) (hwritten.asking hhidden hask')
  | kept _ htree =>
    subst htree
    exact .of_kept (hannotated.asking hhidden hask')

/-- The list is never lost, and the linter never sees it. -/
theorem keepsList (task : Task) (l : Linter σ) (s : Settings) (base : Path) (w : World σ)
    (hhidden : hiddenPath (listPath s base) = .ok hidden)
    (hplace : InPlace w.tree (listPath s base) hidden octets)
    (hcalls : ∀ c ∈ task.calls l s base w, c.Discreet base (listPath s base) hidden) :
    ∃ before after now, task.calls l s base w = before ++ after ∧
      task.KeepsList s base hidden octets w.tree ((task.job l s base).runFrom w).2.tree
        before after now := by
  have hguarded := task.of_watched l s base w (P := fun _ t calls =>
    ListGuarded task s base hidden octets w.tree t calls) <| by
      cases task with
      | compress => exact ends_compress_guarded hhidden hplace rfl
      | eliminate style => exact ends_eliminate_guarded hhidden hplace rfl
  exact hguarded hcalls

theorem keepsList_sample :
    (∀ c ∈ Task.compress.calls Sample.strict .standard Sample.base Sample.world,
      c.Discreet Sample.base (listPath .standard Sample.base)
        ⟨.absolute, [".stylelintignore.slim-hidden"]⟩) ∧
    ∃ before after now,
      Task.compress.calls Sample.strict .standard Sample.base Sample.world = before ++ after ∧
        Task.compress.KeepsList .standard Sample.base ⟨.absolute, [".stylelintignore.slim-hidden"]⟩
          Sample.list Sample.tree
          ((Task.compress.job Sample.strict .standard Sample.base).runFrom Sample.world).2.tree
          before after now := by
  have hcalls : ∀ c ∈ Task.compress.calls Sample.strict .standard Sample.base Sample.world,
      c.Discreet Sample.base (listPath .standard Sample.base)
        ⟨.absolute, [".stylelintignore.slim-hidden"]⟩ := by
    decide +kernel
  exact ⟨hcalls, keepsList .compress Sample.strict .standard Sample.base Sample.world rfl
    (by decide +kernel) hcalls⟩

end Workflow
end LintDebt
