import LintDebt.Proofs.Call
import LintDebt.Proofs.Except
import LintDebt.Proofs.Query.WhileHidden

/-! # One question to the linter

What can happen when files are linted with the ignore list out of sight: the linter is not asked at
all, or it is asked once, and then the list is moved back or is left where it was hidden. All that
is said later about runs goes through these cases. -/

namespace LintDebt.Query

/-- What keeps a question from being asked, with the failure that it comes to. -/
inductive Barred (list : Path) (t : FileTree) : Failure → Prop where
  /-- The system does not say whether the list is there. -/
  | unknown (e : OsError) (h : t.existsAt list.text = .error e) : Barred list t (.fault (.os e))
  /-- The list has no name, and so no hidden path. -/
  | nameless (f : Fault) (h : hiddenPath list = .error f) : Barred list t (.fault f)
  /-- The list is there and cannot be moved away. -/
  | unmoved (hidden : Path) (e : OsError) (hlist : t.existsAt list.text = .ok true)
    (hhidden : hiddenPath list = .ok hidden) (haway : t.rename list.text hidden.text = .error e) :
    Barred list t (stuck list hidden e)

theorem Barred.not_away {list hidden : Path} {t t' : FileTree} {e : Failure} (h : Barred list t e)
    (hlist : t.existsAt list.text = .ok true) (hhidden : hiddenPath list = .ok hidden) :
    t.rename list.text hidden.text ≠ .ok t' := by
  intro haway
  cases h with
  | unknown e h => cases h.symm.trans hlist
  | nameless f h => cases h.symm.trans hhidden
  | unmoved hidden' e _ hhidden' haway' =>
    cases hhidden.symm.trans hhidden'
    cases haway.symm.trans haway'

/-- One question, from the tree before it to the calls made, the result and the tree after it. -/
inductive Asking (list : Path) (config : Json.Fields) (files : List Path) (t : FileTree) :
    List Call → Except Failure (List Report) → FileTree → Prop where
  /-- There is nothing to ask about. -/
  | idle (hfiles : files = []) : Asking list config files t [] (.ok []) t
  /-- The question is not asked, and the list stays where it is. -/
  | refused (hfiles : files ≠ []) (e : Failure) (hbarred : Barred list t e) :
    Asking list config files t [] (.error e) t
  /-- There is no list to hide. -/
  | open (hfiles : files ≠ []) (c : Call)
    (hasked : c.config = config ∧ c.files = files.map Path.text) (hlist : t.existsAt list.text = .ok false)
    (hbefore : c.before = t) :
    Asking list config files t [c] (blameLinter c.answer) c.after
  /-- The list was hidden and is back. -/
  | hidden (hfiles : files ≠ []) (c : Call)
    (hasked : c.config = config ∧ c.files = files.map Path.text) (hidden : Path)
    (hlist : t.existsAt list.text = .ok true) (hhidden : hiddenPath list = .ok hidden)
    (haway : t.rename list.text hidden.text = .ok c.before) (t' : FileTree)
    (hback : c.after.rename hidden.text list.text = .ok t') :
    Asking list config files t [c] (blameLinter c.answer) t'
  /-- The list was hidden and cannot be moved back. -/
  | stranded (hfiles : files ≠ []) (c : Call)
    (hasked : c.config = config ∧ c.files = files.map Path.text) (hidden : Path)
    (hlist : t.existsAt list.text = .ok true) (hhidden : hiddenPath list = .ok hidden)
    (haway : t.rename list.text hidden.text = .ok c.before) (e : OsError)
    (hback : c.after.rename hidden.text list.text = .error e) :
    Asking list config files t [c]
      (.error (TextFile.refusal (fun f => .unmovable f hidden.text list.text) e)) c.after

/-- A question that was answered, with the reports: either there was nothing to ask about, or the list
is where it was, if there is one. -/
inductive Answered (list : Path) (config : Json.Fields) (files : List Path) (t : FileTree) :
    List Call → List Report → FileTree → Prop where
  | idle (hfiles : files = []) : Answered list config files t [] [] t
  | open (hfiles : files ≠ []) (c : Call)
    (hasked : c.config = config ∧ c.files = files.map Path.text) (hlist : t.existsAt list.text = .ok false)
    (hbefore : c.before = t) (reports : List Report) (hanswer : c.answer = .ok reports) :
    Answered list config files t [c] reports c.after
  | hidden (hfiles : files ≠ []) (c : Call)
    (hasked : c.config = config ∧ c.files = files.map Path.text) (hidden : Path)
    (hlist : t.existsAt list.text = .ok true) (hhidden : hiddenPath list = .ok hidden)
    (haway : t.rename list.text hidden.text = .ok c.before) (t' : FileTree)
    (hback : c.after.rename hidden.text list.text = .ok t') (reports : List Report)
    (hanswer : c.answer = .ok reports) : Answered list config files t [c] reports t'

theorem answer_of_blameLinter {x : Except Failure (List Report)} {reports : List Report}
    (h : blameLinter x = .ok reports) : x = .ok reports := by
  rcases x with (e | f) | reports'
  · cases h
  · cases h
  · exact h

theorem Asking.toAnswered {list : Path} {config : Json.Fields} {files : List Path} {t t' : FileTree}
    {calls : List Call} {reports : List Report} (h : Asking list config files t calls (.ok reports) t') :
    Answered list config files t calls reports t' := by
  generalize hr : (Except.ok reports : Except Failure (List Report)) = r at h
  cases h with
  | idle hfiles =>
    cases hr
    exact .idle hfiles
  | refused => cases hr
  | «open» hfiles c hasked hlist hbefore =>
    exact .open hfiles c hasked hlist hbefore reports (answer_of_blameLinter hr.symm)
  | hidden hfiles c hasked hidden hlist hhidden haway t' hback =>
    exact .hidden hfiles c hasked hidden hlist hhidden haway t' hback reports
      (answer_of_blameLinter hr.symm)
  | stranded => cases hr

/-- Without files there is no question. -/
theorem Asking.of_nil {list : Path} {config : Json.Fields} {t t' : FileTree} {calls : List Call}
    {r : Except Failure (List Report)} (h : Asking list config [] t calls r t') :
    calls = [] ∧ r = .ok [] ∧ t' = t := by
  cases h with
  | idle => exact ⟨rfl, rfl, rfl⟩
  | refused hne | «open» hne | hidden hne | stranded hne => exact absurd rfl hne

/-- What the linter was asked. -/
theorem Asking.asked {list : Path} {config : Json.Fields} {files : List Path} {t t' : FileTree}
    {calls : List Call} {r : Except Failure (List Report)} (h : Asking list config files t calls r t') :
    ∀ c ∈ calls, c.config = config ∧ c.files = files.map Path.text := by
  cases h with
  | idle | refused => simp
  | «open» _ c hasked | hidden _ c hasked | stranded _ c hasked => simpa using hasked

open Job

variable {σ : Type} {l : Linter σ} {config : Json.Fields} {files : List Path} {list : Path}
  {w : World (σ × List Call)}

/-- The linter is asked once, and the call is recorded. -/
theorem ends_lint {Q : Except Failure (List Report) → FileTree → σ × List Call → Prop}
    (h : ∀ c : Call, c.config = config ∧ c.files = files.map Path.text → c.before = w.tree →
      ∀ s, Q (blameLinter c.answer) c.after (s, w.state.2 ++ [c])) :
    (do
      let result ← (l.watched.lint config (files.map Path.text)).observe
      Job.ofExcept (blameLinter result) : Job (σ × List Call) (List Report)).Ends w Q := by
  rw [ends_observe_bind]
  exact h ⟨config, files.map Path.text, w.tree, _, _⟩ ⟨rfl, rfl⟩ rfl _

/-- Every question is one of the cases of `Asking`. -/
theorem ends_violations : (violations l.watched config files list).Ends w fun r t x =>
    ∃ calls, x.2 = w.state.2 ++ calls ∧ Asking list config files w.tree calls r t := by
  rw [violations]
  by_cases hfiles : files = []
  · subst hfiles
    exact ⟨[], (List.append_nil _).symm, .idle rfl⟩
  rw [if_neg (by simpa using hfiles)]
  have hrefused : ∀ e, Barred list w.tree e → ∃ calls, w.state.2 = w.state.2 ++ calls ∧
      Asking list config files w.tree calls (.error e) w.tree :=
    fun e hbarred => ⟨[], (List.append_nil _).symm, .refused hfiles e hbarred⟩
  refine ends_whileHidden (fun e hunknown => hrefused _ (.unknown e hunknown)) (fun habsent => ?_)
    (fun f hnameless => hrefused _ (.nameless f hnameless))
    (fun hidden e hlist hhidden hstuck => hrefused _ (.unmoved hidden e hlist hhidden hstuck))
    fun hidden t₁ hlist hhidden haway => ?_
  · exact ends_lint fun c hasked hbefore s => ⟨[c], rfl, .open hfiles c hasked habsent hbefore⟩
  · refine ends_lint fun c hasked hbefore s => ?_
    rw [← show c.before = t₁ from hbefore] at haway
    exact ⟨fun t' hback => ⟨[c], rfl, .hidden hfiles c hasked hidden hlist hhidden haway t' hback⟩,
      fun e hback => ⟨[c], rfl, .stranded hfiles c hasked hidden hlist hhidden haway e hback⟩⟩

end LintDebt.Query
