import LintDebt.Proofs.Query.Restoring
import LintDebt.Proofs.TextFile.Readers
import LintDebt.Proofs.Workflow.Compressing
import LintDebt.Proofs.Workflow.Sample

/-! # A list from which nothing is dropped

A compression under which every pattern still fails keeps every line, so all that it can change of
the list is what its reader drops and its writer sets: the byte order mark, the line ends, and the end
of the last line. It gives back the octets that it found exactly where the list was in order already.
The linter may do to the tree what it likes while it is asked about a pattern, since the list is
written after that; only the last question, which is for the count, has to return the list as it
was. -/

namespace LintDebt

open FileTree Query

/-- The tree that a question leaves: the one that the linter left, with the list back at its place if
it was there to be hidden. -/
def Query.leaves (list : Path) (t : FileTree) (c : Call) : FileTree :=
  match t.existsAt list.text, hiddenPath list with
  | .ok true, .ok hidden => (c.after.rename hidden.text list.text).toOption.getD c.after
  | _, _ => c.after

/-- Calls, each with the tree that its question leaves. -/
def Query.course (list : Path) : FileTree → List Call → List (Call × FileTree)
  | _, [] => []
  | t, c :: calls => (c, leaves list t c) :: course list (leaves list t c) calls

/-- Holds if the answer of a call, if there is one, has a failing report on one of these files. -/
def Call.Blames (c : Call) (t : FileTree) (base : Path) (files : List Path) : Prop :=
  ∀ reports, c.answer = .ok reports →
    ∃ r ∈ reports, r.errored = true ∧ ∃ p ∈ files, sourcePath t base r.source = .ok p

/-- Holds if the list that comes back after a call reads as the one that was hidden before it. -/
def Call.Returns (c : Call) (list : Path) : Prop :=
  ∀ hidden, hiddenPath list = .ok hidden → ∀ t', c.after.rename hidden.text list.text = .ok t' →
    ∃ t, c.before.rename hidden.text list.text = .ok t ∧ t'.read list.text = t.read list.text

instance {c : Call} {t : FileTree} {base : Path} {files : List Path} :
    Decidable (c.Blames t base files) :=
  decidable_of_iff (∀ reports ∈ c.answer.toOption,
      ∃ r ∈ reports, r.errored = true ∧ ∃ p ∈ files, sourcePath t base r.source = .ok p) <| by
    simp only [mem_toOption, Call.Blames]

instance {c : Call} {list : Path} : Decidable (c.Returns list) :=
  decidable_of_iff (∀ hidden ∈ (hiddenPath list).toOption,
      ∀ t' ∈ (c.after.rename hidden.text list.text).toOption,
        ∃ t ∈ (c.before.rename hidden.text list.text).toOption,
          t'.read list.text = t.read list.text) <| by
    simp only [mem_toOption, Call.Returns]

namespace Query

variable {list : Path} {config : Json.Fields} {files : List Path} {calls : List Call}
  {reports : List Report} {t t' : FileTree} {octets : List UInt8} {c : Call}

theorem course_append (list : Path) (t : FileTree) (calls asked : List Call) :
    course list t (calls ++ asked) =
      course list t calls ++ course list (calls.foldl (leaves list) t) asked := by
  induction calls generalizing t with
  | nil => rfl
  | cons c calls ih => rw [List.cons_append, course, course, ih, List.foldl_cons, List.cons_append]

theorem length_course (list : Path) (t : FileTree) (calls : List Call) :
    (course list t calls).length = calls.length := by
  induction calls generalizing t with
  | nil => rfl
  | cons c calls ih => rw [course, List.length_cons, List.length_cons, ih]

theorem Asking.eq_leaves (h : Asking list config files t [c] (.ok reports) t') :
    t' = leaves list t c := by
  cases h.toAnswered with
  | «open» _ _ _ hno => rw [leaves, hno]
  | hidden _ _ _ hidden hyes hhidden _ _ hback =>
    rw [leaves, hyes, hhidden]
    simp only [hback, Except.toOption, Option.getD_some]

/-- A list that is there reads the same after a question whose call returns it. -/
theorem Asking.read_of_returns (h : Asking list config files t calls (.ok reports) t')
    (ht : t.IsTree) (hread : t.read list.text = .ok octets) (hreturns : ∀ c ∈ calls, c.Returns list)
    {found : List UInt8} (hfound : t'.read list.text = .ok found) : found = octets := by
  cases h.toAnswered with
  | idle => exact Except.ok.inj (hfound.symm.trans hread)
  | «open» _ c _ hno =>
    rw [existsAt, read_eq_ok.mp hread] at hno
    cases hno
  | hidden _ c _ hidden _ hhidden haway _ hback =>
    obtain ⟨t₁, hback', hsame⟩ := hreturns c (by simp) hidden hhidden _ hback
    obtain ⟨rfl, -⟩ := eq_vacate_of_moves ht hread hhidden haway hback'
    have hbefore := read_eq_ok.mpr (stat_of_vacate (read_eq_ok.mp (hsame.symm.trans hfound)))
    exact Except.ok.inj (hbefore.symm.trans hread)

end Query

namespace IgnoreList

variable {m : IgnoreList} {e : Entry} {pattern : String}

/-- To set the files of a pattern keeps all patterns that have files. -/
theorem keeps_put (he : e.files ≠ []) (h : m.keeps pattern = true ∨ e.pattern = pattern) :
    (m.put e).keeps pattern = true := by
  rw [keeps_iff, put]
  by_cases hany : m.any (·.pattern == e.pattern) = true
  · rw [if_pos hany]
    obtain ⟨f, hf, hpattern⟩ := List.any_eq_true.mp hany
    by_cases hsame : e.pattern = pattern
    · exact ⟨e, List.mem_map.mpr ⟨f, hf, if_pos hpattern⟩, hsame, he⟩
    · obtain ⟨g, hg, rfl, hfiles⟩ := keeps_iff.mp (h.resolve_right hsame)
      refine ⟨g, List.mem_map.mpr ⟨g, hg, if_neg ?_⟩, rfl, hfiles⟩
      simpa using Ne.symm hsame
  · rw [if_neg hany]
    rcases h with h | h
    · obtain ⟨g, hg, hpattern, hfiles⟩ := keeps_iff.mp h
      exact ⟨g, List.mem_append_left _ hg, hpattern, hfiles⟩
    · exact ⟨e, by simp, h, he⟩

end IgnoreList

namespace Workflow

open Job

/-- Holds for a line whose pattern finds a file that is not suppressed as a whole. -/
def findsOpen (t : FileTree) (s : Settings) (base : Path) (line : String) : Bool :=
  match Glob.resolvePattern t base (s.patterns.expand line) with
  | .ok files => files.any (Blanket.isOpen t)
  | .error _ => false

/-- The patterns that a compression asks about. -/
def questions (t : FileTree) (s : Settings) (base : Path) : List IgnoreList.Entry :=
  (openEntries t s base).toOption.getD []

/-- Holds of the calls of a compression if every pattern among these lines finds an open file, each
question about a pattern is answered with a failing report on one of its open files, and the list is
returned from the question after those. What those questions leave has to be a tree. -/
structure FailsThroughout (t : FileTree) (s : Settings) (base : Path) (lines : List String)
    (calls : List Call) : Prop where
  opens : ∀ line ∈ lines, IgnoreList.isRemark line = false → findsOpen t s base line = true
  blames : ∀ q ∈ (questions t s base).zip (course (listPath s base) t calls),
    q.2.1.Blames q.2.2 base q.1.files
  tree : ((calls.take (questions t s base).length).foldl (leaves (listPath s base)) t).IsTree
  returns : ∀ c ∈ calls.drop (questions t s base).length, c.Returns (listPath s base)

instance {t : FileTree} {s : Settings} {base : Path} {lines : List String} {calls : List Call} :
    Decidable (FailsThroughout t s base lines calls) :=
  decidable_of_iff
    ((∀ line ∈ lines, IgnoreList.isRemark line = false → findsOpen t s base line = true) ∧
      (∀ q ∈ (questions t s base).zip (course (listPath s base) t calls),
        q.2.1.Blames q.2.2 base q.1.files) ∧
      ((calls.take (questions t s base).length).foldl (leaves (listPath s base)) t).IsTree ∧
      ∀ c ∈ calls.drop (questions t s base).length, c.Returns (listPath s base))
    ⟨fun ⟨hopens, hblames, htree, hreturns⟩ => ⟨hopens, hblames, htree, hreturns⟩,
      fun h => ⟨h.opens, h.blames, h.tree, h.returns⟩⟩

variable {σ : Type} {l : Linter σ} {s : Settings} {base list : Path} {config : Json.Fields}
  {start t t' : FileTree} {calls asked : List Call} {entries done : List IgnoreList.Entry}
  {e : IgnoreList.Entry} {lines : List String} {reports : List Report} {v : Verdict} {x : Examined}
  {c : Call} {text : List Char} {o : Outcome}

theorem questions_eq (h : openEntries t s base = .ok entries) : questions t s base = entries := by
  rw [questions, h]
  rfl

/-- A verdict after a call that blames a file finds that one failing. -/
theorem Judged.failing_ne_nil (h : Judged t base e reports v) (hblames : c.Blames t base e.files)
    (hanswer : c.answer = .ok reports) : v.failing ≠ [] := by
  obtain ⟨errored, herrored, hv⟩ := h.errored
  obtain ⟨r, hr, hfails, p, hp, hsource⟩ := hblames reports hanswer
  have hmem : p ∈ errored :=
    (mem_of_mapM herrored p).mpr ⟨r, List.mem_filter.mpr ⟨hr, hfails⟩, hsource⟩
  rw [hv]
  exact List.ne_nil_of_mem (List.mem_filter.mpr ⟨hp, decide_eq_true hmem⟩)

/-- Holds if all these patterns are kept. -/
def AllKept (done : List IgnoreList.Entry) (x : Examined) : Prop :=
  ∀ e ∈ done, x.kept.keeps e.pattern = true

theorem AllKept.add (h : AllKept done x) (hv : v.failing ≠ []) :
    AllKept (done ++ [e]) (x.add e v) := by
  have hadd : (x.add e v).kept = x.kept.put ⟨e.pattern, v.failing⟩ := by
    rw [Examined.add, if_neg (by simpa using hv)]
  intro f hf
  rw [hadd]
  refine IgnoreList.keeps_put hv ?_
  rcases List.mem_append.mp hf with hf | hf
  · exact Or.inl (h f hf)
  · rw [List.mem_singleton.mp hf]
    exact Or.inr rfl

/-- The invariant of the loop: one call for each pattern so far, and if each of these blamed a file of
its pattern, all patterns are kept. -/
structure KeptWhileBlamed (base list : Path) (start : FileTree) (done : List IgnoreList.Entry)
    (x : Examined) (t : FileTree) (calls : List Call) : Prop where
  length : calls.length = done.length
  left : t = calls.foldl (leaves list) start
  kept : (∀ q ∈ done.zip (course list start calls), q.2.1.Blames q.2.2 base q.1.files) →
    AllKept done x

theorem KeptWhileBlamed.asking (h : KeptWhileBlamed base list start done x t calls)
    (hfiles : e.files ≠ []) (hask : Asking list config e.files t asked (.ok reports) t')
    (hv : Judged t' base e reports v) :
    KeptWhileBlamed base list start (done ++ [e]) (x.add e v) t' (calls ++ asked) := by
  rcases hask.answer with ⟨hnil, -⟩ | ⟨c, rfl, -, hanswer⟩
  · exact absurd hnil hfiles
  have hleft := hask.eq_leaves
  refine ⟨by simp [h.length], by rw [List.foldl_append, ← h.left]; exact hleft, fun hblames => ?_⟩
  rw [course_append, List.zip_append (by rw [length_course, h.length])] at hblames
  refine (h.kept fun q hq => hblames q (List.mem_append_left _ hq)).add ?_
  have hlast : c.Blames (leaves list t c) base e.files :=
    hblames (e, c, leaves list t c) (List.mem_append_right _ (by rw [← h.left]; exact .head _))
  exact hv.failing_ne_nil (hleft ▸ hlast) hanswer

/-- Nothing is dropped from a list whose patterns are all kept. -/
theorem AllKept.renderOver_eq (h : AllKept entries x) (hopen : openEntries t s base = .ok entries)
    (hlines : TextFile.lines t (listPath s base) = .ok lines)
    (hopens : ∀ line ∈ lines, IgnoreList.isRemark line = false → findsOpen t s base line = true) :
    x.kept.renderOver lines = IgnoreList.renderLines lines := by
  obtain ⟨-, hmem⟩ := mem_openEntries hopen hlines
  rw [IgnoreList.renderOver, List.filter_eq_self.mpr]
  intro line hline
  cases hremark : IgnoreList.isRemark line with
  | true => rfl
  | false =>
    rw [Bool.false_or]
    have hfinds := hopens line hline hremark
    rw [findsOpen] at hfinds
    split at hfinds
    · next files hfiles =>
      obtain ⟨p, hp, hpopen⟩ := List.any_eq_true.mp hfinds
      have hne : files.filter (Blanket.isOpen t) ≠ [] :=
        List.ne_nil_of_mem (List.mem_filter.mpr ⟨hp, hpopen⟩)
      exact h ⟨line, files.filter (Blanket.isOpen t)⟩
        ((hmem _).mpr ⟨hline, hremark, hne, files, hfiles, rfl⟩)
    · cases hfinds

variable {w : World (σ × List Call)}

theorem ends_compress_failing (hcalls : w.state.2 = [])
    (hlines : TextFile.lines w.tree (listPath s base) = .ok lines) :
    (compress l.watched s base).Ends w fun r t x => FailsThroughout w.tree s base lines x.2 →
      ∀ o, r = .ok o → o.status = .ok → t.read (listPath s base).text =
        .ok (Utf8.encode (IgnoreList.renderLines lines)) := by
  refine ends_compress_of (fun _ _ _ => settled_of_ok) fun stats config lines' entries hprepared log => ?_
  obtain ⟨-, hlines', -, hopen⟩ := hprepared
  cases hlines.symm.trans hlines'
  refine ends_examine (KeptWhileBlamed base (listPath s base) w.tree) entries ?_ ?_ ?_ _ _
    ⟨by rw [hcalls]; rfl, by rw [hcalls]; rfl, fun _ _ h => absurd h List.not_mem_nil⟩
  · intro done e he x t calls hx asked answer t' hask f state
    exact settled_of_ok
  · intro done e he x t calls hx asked reports t' v hask hv
    exact hx.asking (files_ne_nil_of_openEntries hopen e he) hask hv
  intro x w' hx
  refine ends_finish (fun _ _ => settled_of_ok) (fun _ _ _ _ _ _ _ => settled_of_ok)
    fun t hwrite asked remaining t' hask state => ⟨fun _ _ => settled_of_ok, fun stats' hstats => ?_⟩
  intro hfails o ho _
  obtain ⟨hopens, hblames, htree, hreturns⟩ := hfails
  -- The calls so far are those about the patterns, and the rest is the last question.
  rw [questions_eq hopen, ← hx.length] at htree hreturns
  rw [List.take_left, ← hx.left] at htree
  rw [List.drop_left] at hreturns
  have hall : AllKept entries x := by
    refine hx.kept fun q hq => hblames q ?_
    rw [questions_eq hopen, course_append, ← List.append_nil entries,
      List.zip_append (by rw [length_course, hx.length])]
    exact List.mem_append_left _ hq
  obtain ⟨found, hfound⟩ := TextFile.read_of_measure hstats
  rw [hfound, hask.read_of_returns (htree.write hwrite) (read_of_write hwrite) hreturns hfound,
    hall.renderOver_eq hopen hlines hopens]

/-- A compression that ends well although every pattern fails throughout sets the list in order, so it
gives back the octets that it found exactly if the list was in order. -/
theorem tidied_of_ok (l : Linter σ) (s : Settings) (base : Path) (w : World σ)
    (hread : w.tree.read (listPath s base).text = .ok (Utf8.encode text))
    (hcalls : FailsThroughout w.tree s base ((Text.lines (Text.unmarked text)).map String.ofList)
      (Task.compress.calls l s base w))
    (ho : ((compress l s base).runFrom w).1 = .ok o) (hok : o.status = .ok) :
    let after := ((compress l s base).runFrom w).2.tree.read (listPath s base).text
    after = .ok (Utf8.encode (Text.tidied text)) ∧
      (after = w.tree.read (listPath s base).text ↔ Text.Tidy text) := by
  intro after
  have hafter : after = .ok (Utf8.encode (Text.tidied text)) := by
    rw [Text.tidied, ← Text.renderLines_lines]
    exact Task.compress.of_watched l s base w (P := fun r t calls =>
      FailsThroughout w.tree s base ((Text.lines (Text.unmarked text)).map String.ofList) calls →
        ∀ o, r = .ok o → o.status = .ok → t.read (listPath s base).text = .ok (Utf8.encode
          (IgnoreList.renderLines ((Text.lines (Text.unmarked text)).map String.ofList))))
      (ends_compress_failing rfl (TextFile.lines_of_encoded hread)) hcalls o ho hok
  refine ⟨hafter, ?_⟩
  rw [hafter, hread, Except.ok.injEq, ← Text.tidied_eq_self_iff]
  refine ⟨fun hsame => ?_, congrArg Utf8.encode⟩
  have hdecode := Utf8.decode_encode (Text.tidied text)
  rw [hsame, Utf8.decode_encode] at hdecode
  exact (Except.ok.inj hdecode).symm

/-- The project of `Sample` with another text as its list. -/
def listWorld (text : String) : World Unit :=
  ⟨Sample.tree.put [".stylelintignore"] (.file (Sample.octets text)), (), []⟩

theorem tidied_of_ok_sample :
    let w := listWorld "# debt\n\na.css\n"
    let after := ((compress Sample.strict .standard Sample.base).runFrom w).2.tree.read
      "/.stylelintignore"
    after = .ok (Utf8.encode (Text.tidied "# debt\n\na.css\n".toList)) ∧
      (after = w.tree.read "/.stylelintignore" ↔ Text.Tidy "# debt\n\na.css\n".toList) := by
  intro w
  have hrun : ((compress Sample.strict .standard Sample.base).runFrom w).1.map Outcome.status =
      .ok .ok := by
    decide +kernel
  obtain ⟨o, ho, hok⟩ := map_eq_ok.mp hrun
  exact tidied_of_ok Sample.strict .standard Sample.base w (by decide +kernel) (by decide +kernel)
    ho hok

/-- The stylesheet fails in every call, and yet the list that a compression gives back has lost the CR
that it had. -/
theorem line_end_lost_sample :
    let w := listWorld "a.css\r\n"
    FailsThroughout w.tree .standard Sample.base ["a.css"]
        (Task.compress.calls Sample.strict .standard Sample.base w) ∧
      ((compress Sample.strict .standard Sample.base).runFrom w).1.map Outcome.status = .ok .ok ∧
      w.tree.read "/.stylelintignore" = .ok (Sample.octets "a.css\r\n") ∧
      ((compress Sample.strict .standard Sample.base).runFrom w).2.tree.read "/.stylelintignore" =
        .ok (Sample.octets "a.css\n") := by
  decide +kernel

end Workflow
end LintDebt
