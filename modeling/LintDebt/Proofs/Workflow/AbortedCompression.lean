import LintDebt.Proofs.Query.Keeping
import LintDebt.Proofs.TextFile
import LintDebt.Proofs.Workflow.Compressing
import LintDebt.Proofs.Workflow.Sample

/-! # The list after an aborted compression

A compression writes the list once, after the last verdict, and only then asks the linter for the
errors that are left. An outcome tells by its number of kept entries whether that write was reached.
If it was not, an aborted run leaves the list as it was; if it was, the list has its new content, and
the only thing that can have aborted the run is the last question. -/

namespace LintDebt

open FileTree Query

namespace Query

variable {t t' : FileTree} {list hidden : Path} {octets : List UInt8} {config : Json.Fields}
  {files : List Path} {asked calls : List Call} {r : Except Failure (List Report)} {e : Failure}

/-- A list at its place that could be hidden before can be hidden again. -/
theorem InPlace.exists_rename {t₀ : FileTree} {octets₀ : List UInt8}
    (h : InPlace t list hidden octets) (hhidden : hiddenPath list = .ok hidden)
    (h₀ : OutOfSight t₀ list hidden octets₀) : ∃ t', t.rename list.text hidden.text = .ok t' := by
  obtain ⟨directory, name, hentry, hn⟩ := h.tree.exists_entry h.list nofun
  obtain ⟨_, _, hentry₀, -⟩ := h₀.tree.exists_entry h₀.hidden nofun
  obtain ⟨rfl, -⟩ := entry_of_hidden hentry hhidden hentry₀
  have hentry' := hidden_of_entry hentry₀ hhidden hentry
  obtain ⟨-, -, hvacant⟩ := (inPlace_iff hentry hentry').mp h
  exact ⟨_, hentry.rename hentry' ne_hidden_name hn nofun (by rw [hvacant]; simp)⟩

/-- A question about a list that can be hidden fails only if the linter does. -/
theorem Asking.call_of_error (h : Asking list config files t asked (.error e) t')
    (hplace : InPlace t list hidden octets) (hhidden : hiddenPath list = .ok hidden)
    (haway : ∃ t', t.rename list.text hidden.text = .ok t')
    (hcalls : ∀ c ∈ asked, c.LeavesAlone list hidden) :
    ∃ c e', asked = [c] ∧ c.files = files.map Path.text ∧ c.answer = .error e' := by
  obtain ⟨directory, name, hentry, hn⟩ := hplace.tree.exists_entry hplace.list nofun
  have hlist : t.existsAt list.text = .ok true := hentry.existsAt hn
  generalize hr : Except.error e = r at h
  have hfailed : ∀ c : Call, .error e = blameLinter c.answer → ∃ e', c.answer = .error e' := by
    intro c hc
    cases ha : c.answer with
    | error e' => exact ⟨e', rfl⟩
    | ok reports =>
      rw [ha] at hc
      cases hc
  cases h with
  | idle hfiles => cases hr
  | refused hfiles e hbarred =>
    obtain ⟨t', haway⟩ := haway
    exact absurd haway (hbarred.not_away hlist hhidden)
  | «open» hfiles c hasked hno hbefore =>
    rw [hlist] at hno
    cases hno
  | hidden hfiles c hasked hidden' _ _ _ t' _ =>
    obtain ⟨e', he'⟩ := hfailed c hr
    exact ⟨c, e', rfl, hasked.2, he'⟩
  | stranded hfiles c hasked hidden' _ hhidden' haway e hback =>
    cases hhidden.symm.trans hhidden'
    obtain ⟨hsight, -⟩ := hplace.outOfSight hhidden haway
    obtain ⟨t₁, hback', -, -⟩ := ((hcalls c (by simp)).outOfSight hsight).inPlace hentry hhidden
    rw [hback'] at hback
    cases hback

end Query

namespace TextFile

/-- The size of a file that can be read is told, unless its octets are no text. -/
theorem measure_ne_error {t : FileTree} {p : Path} {octets : List UInt8}
    (h : t.read p.text = .ok octets) (e : ToolError) : measure t p ≠ .error (.tool e) := by
  rw [measure_of_read h]
  cases Utf8.decode octets <;> nofun

end TextFile

namespace Workflow

open Job

/-- The list after a compression from `t` to `t'` that was aborted: as it was, or written anew, and
then the linter failed to count what is left. -/
structure Interrupted (s : Settings) (base hidden : Path) (octets : List UInt8)
    (t t' : FileTree) (calls : List Call) (o : Outcome) : Prop where
  unwritten : o.entriesKept = none → InPlace t' (listPath s base) hidden octets
  written : ∀ n, o.entriesKept = some n → ∃ (lines : List String) (kept : IgnoreList) (before : _) (c : _)
    (e : _), TextFile.lines t (listPath s base) = .ok lines ∧ n = (kept.length : Int) ∧
      InPlace t' (listPath s base) hidden (Utf8.encode (kept.renderOver lines)) ∧
      calls = before ++ [c] ∧ c.files = kept.files.map Path.text ∧ c.answer = .error e

/-- Holds of an ending if an aborted run left the list so, provided the linter left it alone. -/
def EndsInterrupted (s : Settings) (base hidden : Path) (octets : List UInt8) (t : FileTree)
    (r : Except Failure Outcome) (t' : FileTree) (x : σ × List Call) : Prop :=
  (∀ c ∈ x.2, c.LeavesAlone (listPath s base) hidden) → ∀ o, r = .ok o → o.status = .aborted →
    Interrupted s base hidden octets t t' x.2 o

/-- What is known about the list while the patterns of it are examined. -/
structure Unwritten (list hidden : Path) (octets : List UInt8) (x : Examined) (t : FileTree)
    (calls : List Call) : Prop where
  ok : x.outcome.status = .ok
  uncounted : x.outcome.entriesKept = none
  asked : x.kept ≠ [] → calls ≠ []
  stays : (∀ c ∈ calls, c.LeavesAlone list hidden) → InPlace t list hidden octets ∧
    ∀ c ∈ calls, OutOfSight c.before list hidden octets

variable {σ : Type} {l : Linter σ} {s : Settings} {base list hidden : Path} {octets : List UInt8}
  {t t' : FileTree} {calls asked : List Call} {config : Json.Fields} {e : IgnoreList.Entry}
  {reports : List Report} {v : Verdict} {x : Examined}

theorem Unwritten.add (h : Unwritten list hidden octets x t calls)
    (hhidden : hiddenPath list = .ok hidden) (hfiles : e.files ≠ [])
    (hask : Asking list config e.files t asked (.ok reports) t') :
    Unwritten list hidden octets (x.add e v) t' (calls ++ asked) := by
  refine ⟨h.ok, h.uncounted, fun _ => ?_, fun hcalls => ?_⟩
  · rcases hask.answer with ⟨hnil, -⟩ | ⟨c, rfl, -⟩
    · exact absurd hnil hfiles
    · simp
  · obtain ⟨hplace, hbefore⟩ := h.stays fun c hc => hcalls c (List.mem_append_left _ hc)
    obtain ⟨hplace', hsights⟩ := hask.inPlace hplace hhidden
      fun c hc => hcalls c (List.mem_append_right _ hc)
    refine ⟨hplace', fun c hc => ?_⟩
    rcases List.mem_append.mp hc with hc | hc
    · exact hbefore c hc
    · exact (hsights c hc).1

/-- The list before the last question and after it. -/
theorem Unwritten.last {new : List UInt8} {t₁ : FileTree} {files : List Path}
    {r : Except Failure (List Report)} (h : Unwritten list hidden octets x t calls)
    (hhidden : hiddenPath list = .ok hidden) (hwrite : t.write list.text new = .ok t₁)
    (hask : Asking list config files t₁ asked r t')
    (hleaves : ∀ c ∈ calls ++ asked, c.LeavesAlone list hidden) :
    InPlace t₁ list hidden new ∧ InPlace t' list hidden new := by
  have hbefore := (h.stays fun c hc => hleaves c (List.mem_append_left _ hc)).1.write hwrite
  exact ⟨hbefore, (hask.inPlace hbefore hhidden fun c hc => hleaves c (List.mem_append_right _ hc)).1⟩

/-- Once the list is written only the linter can abort the run, as the list could be hidden before. -/
theorem Unwritten.interrupted {lines : List String} {f : Failure} {e : ToolError} {t₀ t₁ : FileTree}
    (h : Unwritten (listPath s base) hidden octets x t calls)
    (hhidden : hiddenPath (listPath s base) = .ok hidden)
    (hlines : TextFile.lines t₀ (listPath s base) = .ok lines)
    (hwrite : t.write (listPath s base).text (Utf8.encode (x.kept.renderOver lines)) = .ok t₁)
    (hask : Asking (listPath s base) config x.kept.files t₁ asked (.error f) t')
    (hleaves : ∀ c ∈ calls ++ asked, c.LeavesAlone (listPath s base) hidden) :
    Interrupted s base hidden octets t₀ t' (calls ++ asked) (x.rewritten.abort e.message) := by
  obtain ⟨hbefore, hplace'⟩ := h.last hhidden hwrite hask hleaves
  refine ⟨fun hnone => (by cases hnone), fun n hn => ?_⟩
  cases hn
  have hkept : x.kept ≠ [] := by
    intro hnil
    rw [hnil] at hask
    obtain ⟨-, hanswer, -⟩ := hask.of_nil
    cases hanswer
  obtain ⟨c₀, hc₀⟩ := List.exists_mem_of_ne_nil _ (h.asked hkept)
  have hsight := (h.stays fun c hc => hleaves c (List.mem_append_left _ hc)).2 c₀ hc₀
  obtain ⟨c, e', rfl, hcfiles, hanswer⟩ := hask.call_of_error hbefore hhidden
    (hbefore.exists_rename hhidden hsight) fun c hc => hleaves c (List.mem_append_right _ hc)
  exact ⟨lines, x.kept, calls, c, e', hlines, rfl, hplace', rfl, hcfiles, hanswer⟩

/-- A run that stops before it writes. -/
theorem settled_endsInterrupted {t₀ : FileTree} {o : Outcome} {f : Failure} {y : σ × List Call}
    (hnone : o.entriesKept = none)
    (hplace : (∀ c ∈ y.2, c.LeavesAlone (listPath s base) hidden) →
      InPlace t (listPath s base) hidden octets) :
    Settled o (EndsInterrupted s base hidden octets t₀) f t y := by
  cases f with
  | fault f =>
    intro _ o' ho
    cases ho
  | tool e =>
    intro hcalls o' ho _
    cases ho
    refine ⟨fun _ => hplace hcalls, fun n hn => ?_⟩
    rw [Outcome.abort, hnone] at hn
    cases hn

variable {w : World (σ × List Call)}

theorem ends_compress_interrupted (hhidden : hiddenPath (listPath s base) = .ok hidden)
    (hplace : InPlace w.tree (listPath s base) hidden octets) (hcalls : w.state.2 = []) :
    (compress l.watched s base).Ends w (EndsInterrupted s base hidden octets w.tree) := by
  have hstop : ∀ {o : Outcome} {f : Failure}, o.entriesKept = none →
      Settled o (EndsInterrupted s base hidden octets w.tree) f w.tree w.state :=
    fun hnone => settled_endsInterrupted hnone fun _ => hplace
  refine ends_compress_of (fun _ _ _ => hstop rfl) fun stats config lines entries hprepared log => ?_
  have hfiles := files_ne_nil_of_openEntries hprepared.opened
  refine ends_examine (fun _ => Unwritten (listPath s base) hidden octets) entries ?_ ?_ ?_ _ _
    ⟨rfl, rfl, by simp, fun _ => ⟨hplace, by simp [hcalls]⟩⟩
  · intro done e _ x t calls hx asked answer t' hask f state
    refine settled_endsInterrupted hx.uncounted fun hleaves => ?_
    have hbefore := (hx.stays fun c hc => hleaves c (List.mem_append_left _ hc)).1
    exact (hask.inPlace hbefore hhidden fun c hc => hleaves c (List.mem_append_right _ hc)).1
  · intro done e he x t calls hx asked reports t' v hask _
    exact hx.add hhidden (hfiles e he) hask
  intro x w' hx
  refine ends_finish (fun f _ => ?_) (fun t hwrite asked f t' hask state => ?_)
    fun t hwrite asked remaining t' hask state => ⟨fun f hf => ?_, fun stats _ => ?_⟩
  · exact settled_endsInterrupted hx.uncounted fun hleaves => (hx.stays hleaves).1
  · cases f with
    | fault f =>
      intro _ o ho
      cases ho
    | tool e =>
      intro hleaves o ho _
      cases ho
      exact hx.interrupted hhidden hprepared.found hwrite hask hleaves
  · cases f with
    | fault f =>
      intro _ o ho
      cases ho
    | tool e =>
      intro hleaves
      obtain ⟨-, hplace'⟩ := hx.last hhidden hwrite hask hleaves
      obtain ⟨directory, name, hentry, hn⟩ :=
        hplace'.tree.exists_entry hplace'.list fun hdir => (by cases hdir)
      exact absurd hf (TextFile.measure_ne_error (hentry.read hn) e)
  · intro _ o ho habort
    cases ho
    rw [Examined.status_finished, hx.ok] at habort
    cases habort

/-- An aborted compression leaves the list as it was, unless it is the last question that failed. -/
theorem interrupted_of_aborted (l : Linter σ) (s : Settings) (base : Path) (w : World σ)
    {o : Outcome} (hhidden : hiddenPath (listPath s base) = .ok hidden)
    (hplace : InPlace w.tree (listPath s base) hidden octets)
    (hcalls : ∀ c ∈ Task.compress.calls l s base w, c.LeavesAlone (listPath s base) hidden)
    (ho : ((compress l s base).runFrom w).1 = .ok o) (habort : o.status = .aborted) :
    Interrupted s base hidden octets w.tree ((compress l s base).runFrom w).2.tree
      (Task.compress.calls l s base w) o :=
  Task.compress.of_watched l s base w (P := fun r t calls =>
    (∀ c ∈ calls, c.LeavesAlone (listPath s base) hidden) → ∀ o, r = .ok o →
      o.status = .aborted → Interrupted s base hidden octets w.tree t calls o)
    (ends_compress_interrupted hhidden hplace rfl) hcalls o ho habort

/-- The sample project with a linter that finds an error in the stylesheet, and fails when it is asked
again. -/
def failingWorld : World (List (Except Failure (List Report))) where
  tree := Sample.tree
  state := [.ok [⟨Text.unitsOf "/a.css", true, [⟨.error, 1, 1, Text.unitsOf "rule", []⟩]⟩],
    .error (.fault (.raised "RuntimeError" "boom"))]
  log := []

theorem interrupted_of_aborted_sample : ∃ o,
    ((compress Sample.scripted .standard Sample.base).runFrom failingWorld).1 = .ok o ∧
      o.status = .aborted ∧
      Interrupted .standard Sample.base ⟨.absolute, [".stylelintignore.slim-hidden"]⟩ Sample.list
        Sample.tree ((compress Sample.scripted .standard Sample.base).runFrom failingWorld).2.tree
        (Task.compress.calls Sample.scripted .standard Sample.base failingWorld) o := by
  have hrun : ((compress Sample.scripted .standard Sample.base).runFrom failingWorld).1.map
      Outcome.status = .ok .aborted := by
    decide +kernel
  obtain ⟨o, ho, habort⟩ := map_eq_ok.mp hrun
  exact ⟨o, ho, habort, interrupted_of_aborted Sample.scripted .standard Sample.base failingWorld rfl
    (by decide +kernel) (by decide +kernel) ho habort⟩

/-- The list can have its new content after a run that was aborted. -/
theorem list_rewritten_sample :
    let hidden : Path := ⟨.absolute, [".stylelintignore.slim-hidden"]⟩
    let list := listPath .standard Sample.base
    let run := (compress Sample.scripted .standard Sample.base).runFrom failingWorld
    hiddenPath list = .ok hidden ∧ InPlace failingWorld.tree list hidden Sample.list ∧
      (∀ c ∈ Task.compress.calls Sample.scripted .standard Sample.base failingWorld,
        c.LeavesAlone list hidden) ∧
      run.1.map Outcome.status = .ok .aborted ∧
      run.2.tree.read list.text = .ok (Sample.octets "# debt\na.css\n") ∧
      Sample.octets "# debt\na.css\n" ≠ Sample.list := by
  decide +kernel

end Workflow
end LintDebt
