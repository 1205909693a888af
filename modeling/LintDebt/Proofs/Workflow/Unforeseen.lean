import LintDebt.Proofs.Faults
import LintDebt.Proofs.Workflow.Accounts

/-! # Runs without an outcome

A run ends with an outcome unless one of its steps faults, and `Unforeseen` lists what a run can
fault at, each cause as it shows in the tree that the run leaves. Nothing is assumed of the linter,
which may answer, fail and change the tree as it likes. A run with an outcome goes one of the ways of
`Task.Goes`, and lists the failures that this way accounts for. -/

namespace LintDebt.Workflow

open Job Query TextFile

/-- Holds for a report that one of the calls gave. -/
def Reported (calls : List Call) (r : Report) : Prop :=
  ∃ c ∈ calls, ∃ reports, c.answer = .ok reports ∧ r ∈ reports

/-- What a run that left the tree `t` can have faulted at. -/
inductive Unforeseen (task : Task) (s : Settings) (base : Path) (calls : List Call) (t : FileTree) :
    Fault → Prop where
  /-- The system does not say whether the list, the configuration or a reported file is there. -/
  | path (p : Path) (hp : p = listPath s base ∨ p = .parse (lintConfigPath s base).text ∨
      task ≠ .compress ∧ ∃ r, Reported calls r ∧ r.errored = true ∧ sourcePath t base r.source = .ok p)
    (f : Fault) (h : Unanswered t p f) : Unforeseen task s base calls t f
  /-- A compression measures a list that is no text. -/
  | octets (htask : task = .compress) (octets : List UInt8) (e : Utf8.Error)
    (hread : t.read (listPath s base).text = .ok octets) (hdecode : Utf8.decode octets = .error e) :
    Unforeseen task s base calls t (.undecodable e)
  /-- The configuration has a number of too many digits. -/
  | digits (text : List Char) (n : Nat)
    (hread : TextFile.read t (.parse (lintConfigPath s base).text) = .ok text)
    (hparse : Json.parse (String.ofList text) = .error (.tooManyDigits n)) :
    Unforeseen task s base calls t (.tooManyDigits n)
  /-- Too many containers of the configuration lie in each other. -/
  | depth (text : List Char) (kind : Json.Kind)
    (hread : TextFile.read t (.parse (lintConfigPath s base).text) = .ok text)
    (hparse : Json.parse (String.ofList text) = .error (.tooDeep kind)) :
    Unforeseen task s base calls t (.tooDeep (some kind))
  /-- A pattern of the list cannot be looked up. -/
  | pattern (stream : Text.Stream) (hstream : TextFile.stream t (listPath s base) = .ok stream)
    (line : String) (hline : line ∈ stream.lines.map String.ofList)
    (hremark : IgnoreList.isRemark line = false) (f : Fault)
    (hlookup : Glob.resolvePattern t base (s.patterns.expand line) = .error f) :
    Unforeseen task s base calls t f
  /-- The linter reported on something that is no path. -/
  | source (r : Report) (hr : Reported calls r) (f : Fault)
    (hsource : sourcePath t base r.source = .error f) : Unforeseen task s base calls t f
  /-- The linter reported rules whose names no octets stand for. -/
  | comments (style : Suppression.Style) (htask : task = .eliminate style) (r : Report)
    (hr : Reported calls r) (herrored : r.errored = true) (lines : List String)
    (updated : List Text.Units) (run : Text.LoneRun)
    (happly : (Suppression.Plan.ofViolations r.warnings).apply style (lines.map Text.unitsOf) =
      .ok updated)
    (hencode : Utf8.encodeUnits (Text.unlines updated) = .error run) :
    Unforeseen task s base calls t (.unencodable run)

/-- Holds of the end of a run from `t` to `t'` if no failure is lost. An outcome has the status and the
failures that the steps of the run account for, which are none exactly if it is `ok`, and then all was
read that had to be, and every call was answered. Without an outcome, the fault is one of those that
nothing foresees. -/
def Accounted (task : Task) (s : Settings) (base : Path) (t : FileTree) (r : Except Failure Outcome)
    (t' : FileTree) (calls : List Call) : Prop :=
  match r with
  | .ok o => task.Goes s base t calls o.status o.failures t' ∧ (o.status = .ok ↔ o.failures = []) ∧
    (o.status = .ok → Unhindered t s base calls)
  | .error e => ∃ f, e = .fault f ∧ Unforeseen task s base calls t' f

variable {σ : Type} {l : Linter σ} {task : Task} {s : Settings} {base list : Path}
  {config : Json.Fields} {files : List Path} {t₀ t t' : FileTree} {calls asked : List Call}
  {style : Suppression.Style} {o : Outcome} {f : Fault} {reports : List Report}
  {w : World (σ × List Call)}

theorem Task.Goes.accounted (h : task.Goes s base t calls o.status o.failures t') :
    Accounted task s base t (.ok o) t' calls :=
  ⟨h, h.ok_iff, h.unhindered⟩

/-- A stage that fails first accounts for it, if the way to it is one that a run goes and its faults
are known. -/
theorem settled_accounted {e : Failure} {x : σ × List Call} (hnone : o.failures = [])
    (htool : ∀ e', e = .tool e' → task.Goes s base t₀ x.2 .aborted [e'.message] t)
    (hfault : ∀ f, e = .fault f → Unforeseen task s base x.2 t f) :
    Settled o (fun r t x => Accounted task s base t₀ r t x.2) e t x := by
  cases e with
  | tool e =>
    refine Task.Goes.accounted ?_
    rw [Outcome.abort, hnone]
    exact htool e rfl
  | fault f => exact ⟨f, rfl, hfault f rfl⟩

theorem reported_of_asking (hask : Asking list config files t asked (.ok reports) t') :
    ∀ r ∈ reports, Reported asked r := by
  rcases hask.answer with ⟨-, rfl, rfl, -⟩ | ⟨c, rfl, -, hanswer⟩
  · simp
  · exact fun r hr => ⟨c, by simp, reports, hanswer, hr⟩

theorem Reported.append (h : Reported asked r) : Reported (calls ++ asked) r := by
  obtain ⟨c, hc, hanswer⟩ := h
  exact ⟨c, List.mem_append_right _ hc, hanswer⟩

theorem unforeseen_of_load
    (h : LintConfig.load t (lintConfigPath s base).text = .error (.fault f)) :
    Unforeseen task s base calls t f := by
  rcases LintConfig.load_fault h with h | ⟨text, htext, ⟨n, hn, rfl⟩ | ⟨kind, hkind, rfl⟩⟩
  · exact .path _ (Or.inr (Or.inl rfl)) f h
  · exact .digits text n htext hn
  · exact .depth text kind htext hkind

theorem unforeseen_of_read
    (h : (IgnoreList.read t (listPath s base) base s.patterns).result = .error (.fault f)) :
    Unforeseen task s base calls t f := by
  rcases IgnoreList.read_fault h with h | ⟨stream, hstream, line, hline, hremark, hlookup⟩
  · exact .path _ (Or.inl rfl) f h
  · exact .pattern stream hstream line hline hremark f hlookup

theorem unforeseen_of_measure (h : TextFile.measure t (listPath s base) = .error (.fault f)) :
    Unforeseen .compress s base calls t f := by
  rcases measure_fault h with h | ⟨octets, e, hread, hdecode, rfl⟩
  · exact .path _ (Or.inl rfl) f h
  · exact .octets rfl octets e hread hdecode

theorem unforeseen_of_unread (h : Unread t s base (.fault f)) :
    Unforeseen .compress s base calls t f := by
  cases h with
  | stats h => exact unforeseen_of_measure h
  | config h => exact unforeseen_of_load h
  | lines h => exact .path _ (Or.inl rfl) f (lines_fault h)
  | patterns h => exact unforeseen_of_read h

theorem unforeseen_of_unsurveyed (h : Unsurveyed t s base (.fault f)) :
    Unforeseen task s base calls t f := by
  cases h with
  | config h => exact unforeseen_of_load h
  | patterns h => exact unforeseen_of_read h

theorem unforeseen_of_asking (hhidden : ∃ hidden, hiddenPath (listPath s base) = .ok hidden)
    (hask : Asking (listPath s base) config files t asked (.error (.fault f)) t') :
    Unforeseen task s base calls t' f := by
  obtain ⟨rfl, hunanswered⟩ := hask.unanswered hhidden
  exact .path _ (Or.inl rfl) f hunanswered

/-- A list that could be read has a path without U+0000, so that no write to it faults. -/
theorem write_list_ne_fault {octets : List UInt8} {text : List Char}
    (hread : t₀.read (listPath s base).text = .ok octets) :
    TextFile.write t (listPath s base) text ≠ .error (.fault f) :=
  fun h => (FileTree.stat_eq_ok.mp (FileTree.read_eq_ok.mp hread)).1 (write_fault h)

/-- The end of a compression that examined every pattern. -/
theorem ends_finish_accounted {x : Examined} {lines : List String}
    (ht : t₀.IsTree) (hread : ∃ octets, t₀.read (listPath s base).text = .ok octets)
    (hstatus : x.outcome.status = .ok) (hnone : x.outcome.failures = [])
    (hexamines : Examines s base t₀ config lines w.state.2 x w.tree) :
    (finish l.watched s base config lines x).Ends w fun r t y =>
      Accounted .compress s base t₀ r t y.2 := by
  obtain ⟨octets, hread⟩ := hread
  have hhidden := exists_hiddenPath_of_read ht hread
  refine ends_finish (fun e he => ?_) (fun t hwrite asked e t' hask state => ?_)
    fun t hwrite asked remaining t' hask state => ?_
  · refine settled_accounted hnone (fun e' h => .unwritten hexamines e' (h ▸ he)) fun f h => ?_
    exact absurd (h ▸ he) (write_list_ne_fault hread)
  all_goals
    have hrewrites : Rewrites s base t₀ config w.state.2 x t :=
      ⟨lines, w.tree, hexamines, TextFile.write_eq_ok.mpr hwrite⟩
  · exact settled_accounted hnone (fun e' h => .uncounted hrewrites e' (h ▸ hask))
      fun f h => unforeseen_of_asking hhidden (h ▸ hask)
  · refine ⟨fun e he => ?_, fun stats hstats => Task.Goes.accounted ?_⟩
    · exact settled_accounted hnone (fun e' h => .unmeasured hrewrites hask e' (h ▸ he))
        fun f h => unforeseen_of_measure (h ▸ he)
    · rw [x.status_finished, x.failures_finished, hstatus, hnone]
      exact Compresses.finished hrewrites hask hstats

theorem ends_compress_accounted (ht : w.tree.IsTree) (hcalls : w.state.2 = []) :
    (compress l.watched s base).Ends w fun r t x =>
      Accounted .compress s base w.tree r t x.2 := by
  refine ends_compress_of (fun stats e he => settled_accounted rfl (fun e' h => ?_)
    fun f h => unforeseen_of_unread (h ▸ he)) fun stats config lines entries hprepared log => ?_
  · rw [hcalls]
    exact Compresses.unread e' (h ▸ he)
  obtain ⟨octets, hread⟩ := read_of_lines hprepared.found
  have hhidden := exists_hiddenPath_of_read ht hread
  refine ends_examine_of (fun done x t calls => x.outcome.status = .ok ∧ x.outcome.failures = [] ∧
    Examination s base config w.tree ⟨begun stats, [], []⟩ done calls x t) entries ?_ ?_ _ _
      ⟨rfl, rfl, by rw [hcalls]; exact .nil⟩
  · intro done e rest hentries x w hx
    refine (ends_judge_of ends_violations).mono
      fun r t y ⟨answer, ⟨asked, hasked, hask⟩, hr⟩ => ?_
    obtain ⟨state, calls⟩ := y
    obtain rfl : calls = w.state.2 ++ asked := hasked
    rcases r with e' | v
    · rcases hr with rfl | ⟨reports, rfl, r, hr, g, hsource, rfl⟩
      · exact settled_accounted hx.2.1
          (fun e h => Compresses.unanswered hprepared hentries hx.2.2 e (h ▸ hask))
          fun f h => unforeseen_of_asking hhidden (h ▸ hask)
      · refine settled_accounted hx.2.1 (fun e h => by cases h) fun f h => ?_
        cases h
        exact .source r (reported_of_asking hask r hr).append g hsource
    · obtain ⟨reports, rfl, hv⟩ := hr
      exact ⟨hx.1, hx.2.1, hx.2.2.concat e hask hv⟩
  · intro x w' hx
    exact ends_finish_accounted ht ⟨octets, hread⟩ hx.1 hx.2.1 ⟨entries, stats, hprepared, hx.2.2⟩

/-- What the annotation of one file faults at: the file is not even looked at, or the comments are
no text. -/
theorem ends_annotate_fault {p : Path} {plan : Suppression.Plan} :
    (annotate p plan style).Ends w fun r t _ => ∀ f, r = .error (.fault f) →
      t = w.tree ∧ Unanswered t p f ∨ ∃ (lines : List String) (updated : _) (run : _),
        plan.apply style (lines.map Text.unitsOf) = .ok updated ∧
          Utf8.encodeUnits (Text.unlines updated) = .error run ∧ f = .unencodable run := by
  refine ends_annotate_of (fun _ => nofun) (fun _ e hpieces f hf => ?_) fun _ lines hpieces => ?_
  · cases hf
    exact Or.inl ⟨rfl, pieces_fault hpieces⟩
  have hlines : lines.map Text.unitsOf ≠ [] := by simpa using pieces_ne_nil hpieces
  obtain ⟨updated, hupdated⟩ := Suppression.exists_apply hlines plan style
  rw [hupdated]
  dsimp only
  cases hencode : Utf8.encodeUnits (Text.unlines updated) with
  | error run =>
    rintro t - f hf
    cases hf
    exact Or.inr ⟨lines, updated, run, hupdated, hencode, rfl⟩
  | ok octets => exact fun t _ => nofun

theorem ends_annotateReport_fault {r : Report} (hr : Reported calls r) (herrored : r.errored = true) :
    (annotateReport base style o r).Ends w fun res t _ => ∀ e, res = .error e →
      ∃ f, e = .fault f ∧ Unforeseen (.eliminate style) s base calls t f := by
  refine ends_annotateReport_of (fun f hpath e he => ?_) fun p hpath =>
    ends_annotate_fault.mono fun result t _ hfault => ⟨fun f hf e he => ?_, fun _ => nofun⟩
  · cases he
    exact ⟨f, rfl, .source r hr f hpath⟩
  · cases he
    refine ⟨f, rfl, ?_⟩
    rcases hfault f hf with ⟨rfl, hp⟩ | ⟨lines, updated, run, happly, hencode, rfl⟩
    · exact .path p (Or.inr (Or.inr ⟨by simp, r, hr, herrored, hpath⟩)) f hp
    · exact .comments style rfl r hr herrored lines updated run happly hencode

theorem ends_annotateAll_fault {reports : List Report} (h : ∀ r ∈ reports, Reported calls r) :
    (annotateAll base style o reports).Ends w fun res t _ => ∀ e, res = .error e →
      ∃ f, e = .fault f ∧ Unforeseen (.eliminate style) s base calls t f := by
  refine ends_foldlM (fun rest _ _ _ => ∀ r ∈ rest, Reported calls r ∧ r.errored = true) ?_
    (fun _ _ _ _ => nofun) fun r hr => ⟨h r (List.mem_filter.mp hr).1, (List.mem_filter.mp hr).2⟩
  intro r rest o₁ w₁ hall
  obtain ⟨⟨hr, herrored⟩, hrest⟩ := List.forall_mem_cons.mp hall
  refine (ends_annotateReport_fault (s := s) hr herrored).mono fun res t _ hfault => ?_
  cases res with
  | error e => exact hfault
  | ok o₂ => exact hrest

/-- What is done with the list once the files are annotated. -/
theorem Truncated.list_after (h : Truncated list o t t') :
    if o.failures = [] then TextFile.write t list [] = .ok t' else t' = t := by
  cases h with
  | emptied hnone hwrite =>
    rw [if_pos hnone]
    exact TextFile.write_eq_ok.mpr hwrite
  | kept hsome htree => rwa [if_neg hsome]

/-- The last count adds its failure to those of the annotations, or leaves them as they are. -/
theorem ends_recount_accounted {t₂ : FileTree} {results : List (Except Failure Int)}
    (hhidden : ∃ hidden, hiddenPath (listPath s base) = .ok hidden) (hfair : Fair o)
    (hfailures : o.failures = results.filterMap failureText)
    (hannotates : Annotates s base style t₀ config files w.state.2 results t₂)
    (htruncated : Truncated (listPath s base) o t₂ w.tree) :
    (recount l.watched config files (listPath s base) o).Ends w fun r t x =>
      Accounted (.eliminate style) s base t₀ r t x.2 := by
  have hlist := htruncated.list_after
  rw [hfailures] at hlist
  refine (ends_recount_of ends_violations).mono fun r t x ⟨answer, ⟨later, hlater, hask⟩, hr⟩ => ?_
  obtain ⟨state, calls⟩ := x
  obtain rfl : calls = w.state.2 ++ later := hlater
  rcases answer with (e | f) | remaining
  · obtain rfl := hr
    refine Task.Goes.accounted ?_
    have hfailures' : (o.addFailure e.message).failures =
        results.filterMap failureText ++ [e.message] := by rw [← hfailures]; rfl
    rw [(hfair.addFailure e.message).status_eq, hfailures', if_neg (by simp)]
    exact Eliminates.uncounted hannotates hlist e hask
  · obtain rfl := hr
    exact ⟨f, rfl, unforeseen_of_asking hhidden hask⟩
  · obtain rfl := hr
    refine Task.Goes.accounted ?_
    rw [show Outcome.status _ = o.status from rfl, show Outcome.failures _ = o.failures from rfl,
      hfair.status_eq, hfailures]
    exact Eliminates.counted hannotates hlist hask

theorem ends_eliminate_accounted (ht : w.tree.IsTree) (hcalls : w.state.2 = []) :
    (eliminate l.watched s base style).Ends w fun r t x =>
      Accounted (.eliminate style) s base w.tree r t x.2 := by
  refine ends_eliminate_of hcalls ends_true
    (fun e state he _ => settled_accounted rfl (fun e' h => Eliminates.unsurveyed e' (h ▸ he))
      fun f h => unforeseen_of_unsurveyed (h ▸ he))
    (fun config files hsurveyed asked e t state hask _ => ?_)
    fun config files hsurveyed asked reports t state hask _ log => ?_
  all_goals
    obtain ⟨octets, hread⟩ := hsurveyed.exists_read
    have hhidden := exists_hiddenPath_of_read ht hread
  · exact settled_accounted rfl (fun e' h => Eliminates.unanswered hsurveyed e' (h ▸ hask))
      fun f h => unforeseen_of_asking hhidden (h ▸ hask)
  have hannotates : ∀ {results o t₂}, Worked (σ × List Call) base style reports t results o t₂ →
      Annotates s base style w.tree config files asked results t₂ := fun hworked =>
    ⟨hsurveyed, ⟨reports, t, hask, hworked.annotations.annotatedAll⟩, hworked.goes⟩
  refine ends_work (ends_annotateAll_fault (s := s) (reported_of_asking hask))
    (fun e t hfault => hfault e rfl)
    (fun results o t₂ hworked _ hnone e he => ?_) fun results o t₂ hworked _ t₃ htruncated log => ?_
  · refine settled_accounted hnone (fun e' h => ?_) fun f h => ?_
    · exact Eliminates.unwritten (hannotates hworked) (hworked.counts.2.2 ▸ hnone) e' (h ▸ he)
    · exact absurd (h ▸ he) (write_list_ne_fault hread)
  · exact ends_recount_accounted hhidden hworked.counts.1 hworked.counts.2.2 (hannotates hworked)
      htruncated

/-- A compression begins with the measures of its list, and gets no further if that is no text. -/
theorem compress_of_undecodable {l : Linter σ} {w : World σ} {octets : List UInt8} {e : Utf8.Error}
    (hread : w.tree.read (listPath s base).text = .ok octets) (h : Utf8.decode octets = .error e) :
    (compress l s base).runFrom w = (.error (.fault (.undecodable e)), w) := by
  have hmeasure : (measure (listPath s base) : Job σ Stats).runFrom w =
      (.error (.fault (.undecodable e)), w) := by
    rw [measure, runFrom_bind, runFrom_tree]
    dsimp only
    rw [runFrom_ofExcept, measure_of_read hread, h]
  rw [compress, stage, runFrom_bind, runFrom_observe, hmeasure]
  rfl

/-- Every run accounts for its failures, and a compression of a list that is no text is among those
without an outcome. -/
theorem accounted_of_run (task : Task) (l : Linter σ) (s : Settings) (base : Path) (w : World σ)
    (ht : w.tree.IsTree) :
    Accounted task s base w.tree ((task.job l s base).runFrom w).1
        ((task.job l s base).runFrom w).2.tree (task.calls l s base w) ∧
      ∀ octets e, w.tree.read (listPath s base).text = .ok octets → Utf8.decode octets = .error e →
        (compress l s base).runFrom w = (.error (.fault (.undecodable e)), w) := by
  refine ⟨?_, fun octets e hread h => compress_of_undecodable hread h⟩
  refine task.of_watched l s base w (P := fun r t calls =>
    Accounted task s base w.tree r t calls) ?_
  cases task with
  | compress => exact ends_compress_accounted ht rfl
  | eliminate style => exact ends_eliminate_accounted ht rfl

/-- The sample project with a list of one octet that is no text. -/
def illegibleWorld : World Unit := ⟨Sample.tree.put [".stylelintignore"] (.file [0xff]), (), []⟩

theorem accounted_of_run_sample :
    illegibleWorld.tree.IsTree ∧
      Unforeseen .compress .standard Sample.base [] illegibleWorld.tree
        (.undecodable ⟨.invalidStart, 0, 1, 0xff⟩) ∧
      ((compress Sample.strict .standard Sample.base).runFrom illegibleWorld).1 =
        .error (.fault (.undecodable ⟨.invalidStart, 0, 1, 0xff⟩)) := by
  have ht : illegibleWorld.tree.IsTree := by decide +kernel
  obtain ⟨haccounted, hstops⟩ :=
    accounted_of_run .compress Sample.strict .standard Sample.base illegibleWorld ht
  have hrun := hstops [0xff] _ (by decide +kernel) rfl
  refine ⟨ht, ?_, congrArg Prod.fst hrun⟩
  have hcalls : Task.compress.calls Sample.strict .standard Sample.base illegibleWorld = [] := by
    decide +kernel
  rw [show Task.compress.job Sample.strict .standard Sample.base =
    compress Sample.strict .standard Sample.base from rfl, hrun, hcalls] at haccounted
  obtain ⟨f, hf, hcause⟩ := haccounted
  cases hf
  exact hcause

/-- There is no outcome, although all that is wrong is an octet of the list. -/
theorem outcome_lost_sample :
    let w := illegibleWorld
    let run := (compress Sample.strict .standard Sample.base).runFrom w
    w.tree.IsTree ∧ w.tree.read (listPath .standard Sample.base).text = .ok [0xff] ∧
      (LintConfig.load w.tree (lintConfigPath .standard Sample.base).text).isOk = true ∧
      run.1 = .error (.fault (.undecodable ⟨.invalidStart, 0, 1, 0xff⟩)) := by
  decide +kernel

end LintDebt.Workflow
