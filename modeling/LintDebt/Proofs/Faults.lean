import LintDebt.Proofs.Ending
import LintDebt.Proofs.IgnoreList
import LintDebt.Proofs.Query.Asking
import LintDebt.Proofs.Query.Hiding
import LintDebt.Proofs.Suppression.Silencing
import LintDebt.Settings
import LintDebt.Suppression.Page

/-! # Which steps fault

A step that is refused fails with an error of the tool's where that was foreseen, and with a fault
otherwise. Here every step of a workflow is asked for its faults. Nearly all of them are that the
system does not say whether a path leads to anything; the others come from what a file holds or what
a linter reported. -/

namespace LintDebt

theorem Traced.result_bind_eq_error {ε α β : Type} {x : Traced ε α} {f : α → Traced ε β} {e : ε} :
    (x >>= f).result = .error e ↔
      x.result = .error e ∨ ∃ a, x.result = .ok a ∧ (f a).result = .error e := by
  rcases x with ⟨log, e' | a⟩
  · simp [bind]
  · simp [bind]

namespace TextFile

/-- Holds for the fault that the system does not say whether a path leads to anything. -/
def Unanswered (t : FileTree) (p : Path) (f : Fault) : Prop :=
  ∃ e, t.existsAt p.text = .error e ∧ f = .os e

variable {t : FileTree} {p : Path} {f : Fault}

theorem require_fault (h : require t p = .error (.fault f)) : Unanswered t p f := by
  rw [require] at h
  rcases hexists : t.existsAt p.text with e | found
  · rw [hexists] at h
    cases h
    exact ⟨e, hexists, rfl⟩
  · rw [hexists] at h
    cases found <;> cases h

theorem octets_fault (h : octets t p = .error (.fault f)) : Unanswered t p f := by
  rcases bind_eq_error.mp h with h | ⟨_, -, h⟩
  · exact require_fault h
  · obtain ⟨e, -, he⟩ := mapError_eq_error.mp h
    cases he

theorem read_fault (h : read t p = .error (.fault f)) : Unanswered t p f := by
  rw [read] at h
  rcases bind_eq_error.mp h with h | ⟨found, -, h⟩
  · exact octets_fault h
  · rcases bind_eq_error.mp h with h | ⟨_, -, h⟩
    · obtain ⟨e, -, he⟩ := mapError_eq_error.mp h
      cases he
    · cases h

theorem pieces_fault (h : pieces t p = .error (.fault f)) : Unanswered t p f := by
  rcases bind_eq_error.mp h with h | ⟨_, -, h⟩
  · exact read_fault h
  · cases h

theorem pieces_ne_nil {found : List String} (h : pieces t p = .ok found) : found ≠ [] := by
  obtain ⟨text, -, h⟩ := bind_eq_ok.mp h
  cases h
  simp [Text.pieces]

theorem stream_fault (h : stream t p = .error (.fault f)) : Unanswered t p f := by
  rcases bind_eq_error.mp h with h | ⟨_, -, h⟩
  · exact octets_fault h
  · cases h

theorem streamEnd_ne_fault (s : Text.Stream) : streamEnd p s ≠ .error (.fault f) := by
  rw [streamEnd]
  cases s.error <;> simp

theorem lines_fault (h : lines t p = .error (.fault f)) : Unanswered t p f := by
  rcases bind_eq_error.mp h with h | ⟨s, -, h⟩
  · exact stream_fault h
  · rcases bind_eq_error.mp h with h | ⟨_, -, h⟩
    · exact absurd h (streamEnd_ne_fault s)
    · cases h

/-- Octets that are no text are a fault only where a file is measured. -/
theorem measure_fault (h : measure t p = .error (.fault f)) : Unanswered t p f ∨
    ∃ octets e, t.read p.text = .ok octets ∧ Utf8.decode octets = .error e ∧ f = .undecodable e := by
  rw [measure] at h
  rcases bind_eq_error.mp h with h | ⟨_, -, h⟩
  · exact Or.inl (require_fault h)
  rcases bind_eq_error.mp h with h | ⟨octets, hoctets, h⟩
  · obtain ⟨e, -, he⟩ := mapError_eq_error.mp h
    cases he
  rcases bind_eq_error.mp h with h | ⟨_, -, h⟩
  · obtain ⟨f', hf', he⟩ := liftFault_eq_error.mp h
    cases he
    obtain ⟨e, he, rfl⟩ := mapError_eq_error.mp hf'
    exact Or.inr ⟨octets, e, mapError_eq_ok.mp hoctets, he, rfl⟩
  · cases h

theorem refusal_fault {wrap : Fault → ToolError} {e : OsError} (h : refusal wrap e = .fault f) :
    e = .nullCharacter := by
  cases e with
  | nullCharacter => rfl
  | refused code path target => cases h

theorem write_fault {text : List Char} (h : write t p text = .error (.fault f)) :
    '\x00' ∈ p.text.toList := by
  obtain ⟨e, he, hf⟩ := mapError_eq_error.mp h
  obtain rfl := refusal_fault hf
  by_contra hnull
  rw [FileTree.write, FileTree.route_of_eq_ok.mpr ⟨hnull, rfl⟩] at he
  rcases bind_eq_error.mp he with he | ⟨r, hr, he⟩
  · cases he
  cases hr
  rcases bind_eq_error.mp he with he | ⟨spot, -, he⟩
  · obtain ⟨_, -, he⟩ := mapError_eq_error.mp he
    cases he
  · cases spot with
    | vacant directory name => cases he
    | found l =>
      dsimp only at he
      split at he <;> cases he

end TextFile

open TextFile

variable {t : FileTree} {p base : Path} {f : Fault}

/-- A configuration that is JSON in form may still be beyond what the reader can take. -/
theorem LintConfig.load_fault {path : String} (h : LintConfig.load t path = .error (.fault f)) :
    Unanswered t (.parse path) f ∨ ∃ text, TextFile.read t (.parse path) = .ok text ∧
      ((∃ n, Json.parse (String.ofList text) = .error (.tooManyDigits n) ∧ f = .tooManyDigits n) ∨
        ∃ kind, Json.parse (String.ofList text) = .error (.tooDeep kind) ∧ f = .tooDeep (some kind)) := by
  rw [LintConfig.load] at h
  rcases bind_eq_error.mp h with h | ⟨text, htext, h⟩
  · exact Or.inl (read_fault h)
  refine Or.inr ⟨text, htext, ?_⟩
  split at h
  · cases h
  · cases h
  · cases h
  · next n hn =>
    cases h
    exact Or.inl ⟨n, hn, rfl⟩
  · next kind hkind =>
    cases h
    exact Or.inr ⟨kind, hkind, rfl⟩

namespace IgnoreList

variable {rule : PatternRule} {m : IgnoreList} {lines : List String} {e : Failure}

/-- Only a pattern that cannot be looked up stops the reading of lines. -/
theorem readLines_error (h : (readLines t base rule m lines).result = .error e) :
    ∃ line ∈ lines, isRemark line = false ∧
      ∃ f, Glob.resolvePattern t base (rule.expand line) = .error f ∧ e = .fault f := by
  induction lines generalizing m with
  | nil => cases h
  | cons line rest ih =>
    rw [readLines] at h
    rcases Traced.result_bind_eq_error.mp h with h | ⟨m', -, h⟩
    · rw [readLine] at h
      split at h
      · cases h
      next hremark =>
      refine ⟨line, List.mem_cons_self, by simpa using hremark, ?_⟩
      rcases Traced.result_bind_eq_error.mp h with h | ⟨files, -, h⟩
      · rw [Traced.result_ofExcept] at h
        exact liftFault_eq_error.mp h
      · split at h <;> cases h
    · obtain ⟨line', hline', hfails⟩ := ih h
      exact ⟨line', List.mem_cons_of_mem _ hline', hfails⟩

theorem read_fault (h : (read t p base rule).result = .error (.fault f)) : Unanswered t p f ∨
    ∃ stream, TextFile.stream t p = .ok stream ∧ ∃ line ∈ stream.lines.map String.ofList,
      isRemark line = false ∧ Glob.resolvePattern t base (rule.expand line) = .error f := by
  rw [read] at h
  rcases Traced.result_bind_eq_error.mp h with h | ⟨stream, hstream, h⟩
  · exact Or.inl (stream_fault h)
  refine Or.inr ⟨stream, hstream, ?_⟩
  rcases Traced.result_bind_eq_error.mp h with h | ⟨m, -, h⟩
  · obtain ⟨line, hline, hremark, f', hf', he⟩ := readLines_error h
    cases he
    exact ⟨line, hline, hremark, hf'⟩
  rcases Traced.result_bind_eq_error.mp h with h | ⟨_, -, h⟩
  · exact absurd h (streamEnd_ne_fault stream)
  · cases h

end IgnoreList

namespace Suppression

/-- A text has at least one line, so that a plan for it can always be carried out. -/
theorem exists_apply {lines : List Text.Units} (hlines : lines ≠ []) (plan : Plan) (style : Style) :
    ∃ updated, plan.apply style lines = .ok updated := by
  rw [apply_eq_page]
  cases style with
  | block => exact ⟨_, by rw [Plan.page, foldlM_enclose hlines]; rfl⟩
  | nextLine => exact ⟨_, by rw [Plan.page, ← announced_nil, foldlM_announce_announced hlines]; rfl⟩

end Suppression

namespace Query

variable {list : Path} {octets : List UInt8}

/-- A file that can be read has a name, and so a hidden path. -/
theorem exists_hiddenPath_of_read (ht : t.IsTree) (h : t.read list.text = .ok octets) :
    ∃ hidden, hiddenPath list = .ok hidden := by
  rw [hiddenPath]
  cases hname : list.name? with
  | some name => exact ⟨_, rfl⟩
  | none =>
    exfalso
    obtain ⟨root, names⟩ := list
    obtain rfl : names = [] := List.getLast?_eq_none_iff.mp hname
    obtain ⟨-, l, hl⟩ := FileTree.stat_eq_ok.mp (FileTree.read_eq_ok.mp h)
    obtain ⟨-, hwalk, hnode⟩ := FileTree.lookup_eq_ok.mp hl
    -- The path leads to where it starts, which is a directory.
    have hsteps : (Route.parse (Path.mk root []).text).steps = ["."] := by
      cases root <;> decide
    rw [hsteps, FileTree.walk_cons, FileTree.move, if_pos rfl] at hwalk
    dsimp only at hwalk
    rw [FileTree.walk_nil] at hwalk
    cases hwalk
    rw [ht.start] at hnode
    cases hnode

variable {config : Json.Fields} {files : List Path} {calls : List Call} {t' : FileTree}

/-- A path that leads to something has no U+0000, so that no move of the list is refused unforeseen. -/
theorem stuck_ne_fault {hidden : Path} {e : OsError} (hlist : t.existsAt list.text = .ok true)
    (hhidden : hiddenPath list = .ok hidden) :
    (t.rename list.text hidden.text = .error e → stuck list hidden e ≠ .fault f) ∧
      ∀ t' : FileTree, t'.rename hidden.text list.text = .error e → stuck hidden list e ≠ .fault f := by
  obtain ⟨n, hn⟩ := FileTree.exists_stat_of_existsAt hlist
  have hnull := (FileTree.stat_eq_ok.mp hn).1
  have hnull' := nonnull_hiddenPath hhidden hnull
  refine ⟨fun haway hf => ?_, fun t' hback hf => ?_⟩
  · obtain ⟨-, -, he⟩ := exists_stuck hnull hnull' haway
    cases he.symm.trans hf
  · obtain ⟨-, -, he⟩ := exists_stuck hnull' hnull hback
    cases he.symm.trans hf

/-- A question about a list with a hidden path faults only before it is asked. -/
theorem Asking.unanswered (h : Asking list config files t calls (.error (.fault f)) t')
    (hhidden : ∃ hidden, hiddenPath list = .ok hidden) : t' = t ∧ Unanswered t list f := by
  generalize hr : (Except.error (.fault f) : Except Failure (List Report)) = r at h
  have hblame : ∀ c : Call, .error (.fault f) ≠ blameLinter c.answer := by
    intro c hc
    rcases ha : c.answer with (e | f') | reports <;> rw [ha] at hc <;> cases hc
  cases h with
  | idle => cases hr
  | refused _ e hbarred =>
    have he := Except.error.inj hr
    cases hbarred with
    | unknown e h =>
      cases he
      exact ⟨rfl, e, h, rfl⟩
    | nameless _ h =>
      obtain ⟨hidden, hhidden⟩ := hhidden
      cases hhidden.symm.trans h
    | unmoved hidden e hlist hhidden haway =>
      exact absurd he.symm ((stuck_ne_fault hlist hhidden).1 haway)
  | «open» _ c => exact absurd hr (hblame c)
  | hidden _ c => exact absurd hr (hblame c)
  | stranded _ c _ hidden hlist hhidden _ e hback =>
    exact absurd (Except.error.inj hr).symm ((stuck_ne_fault hlist hhidden).2 c.after hback)

end Query
end LintDebt
