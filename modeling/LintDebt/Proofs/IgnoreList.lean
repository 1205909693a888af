import LintDebt.IgnoreList
import LintDebt.Proofs.Keyed
import LintDebt.Proofs.TextFile

/-! # What a list holds once it is read

A list that was read holds exactly the patterns among its lines that find a file, each once, with
the files that they find; and what is left of it without the suppressed files are the patterns that
still have one. Every description is by membership, since the order of the patterns decides nothing
but the order of the questions to the linter. -/

namespace LintDebt

namespace Traced

variable {ε α β : Type} {x : Traced ε α} {f : α → Traced ε β} {b : β}

@[simp] theorem result_pure (a : α) : (pure a : Traced ε α).result = .ok a := rfl

@[simp] theorem result_ofExcept (r : Except ε α) : (ofExcept r).result = r := rfl

theorem result_bind_eq_ok :
    (x >>= f).result = .ok b ↔ ∃ a, x.result = .ok a ∧ (f a).result = .ok b := by
  rcases x with ⟨log, e | a⟩
  · simp [bind]
  · simp [bind]

end Traced

theorem liftFault_eq_ok {x : Except Fault α} {a : α} : liftFault x = .ok a ↔ x = .ok a := by
  rw [liftFault, mapError_eq_ok]

theorem liftFault_eq_error {x : Except Fault α} {e : Failure} :
    liftFault x = .error e ↔ ∃ f, x = .error f ∧ e = .fault f := by
  rw [liftFault, mapError_eq_error]
  simp only [eq_comm]

namespace Blanket

/-- Holds unless a file is known to be suppressed as a whole. -/
def isOpen (t : FileTree) (p : Path) : Bool :=
  match covers t p with
  | .ok true => false
  | _ => true

variable {t : FileTree} {p : Path} {kept : Bool} {files open? : List Path}

theorem isOpen_eq_false : isOpen t p = false ↔ covers t p = .ok true := by
  delta isOpen
  rcases covers t p with e | b
  · simp
  · cases b <;> simp

/-- Which file is meant depends on the written path only. -/
theorem covers_congr {q : Path} (h : p.text = q.text) : covers t p = covers t q := by
  have hend : ∀ s : Text.Stream, TextFile.streamEnd p s = TextFile.streamEnd q s := by
    intro s
    rw [TextFile.streamEnd, TextFile.streamEnd, h]
  simp only [covers, TextFile.stream, TextFile.octets, TextFile.require, h, hend]

theorem result_keeps (h : (keeps t p).result = .ok kept) : kept = isOpen t p := by
  delta keeps at h
  delta isOpen
  rcases hc : covers t p with (e | f) | b
  · rw [hc] at h
    exact (Except.ok.inj h).symm
  · rw [hc] at h
    cases h
  · rw [hc] at h
    cases b <;> exact (Except.ok.inj h).symm

theorem result_filter (h : (filter t files).result = .ok open?) :
    open? = files.filter (isOpen t) := by
  induction files generalizing open? with
  | nil => exact (Except.ok.inj h).symm
  | cons p rest ih =>
    change (do
      let kept ← keeps t p
      let others ← filter t rest
      return if kept then p :: others else others).result = _ at h
    obtain ⟨kept, hkept, h⟩ := Traced.result_bind_eq_ok.mp h
    obtain ⟨others, hothers, h⟩ := Traced.result_bind_eq_ok.mp h
    rw [List.filter_cons, ← result_keeps hkept, ← ih hothers]
    exact (Except.ok.inj h).symm

/-- A file that can be read is suppressed as a whole or not, and neither is a fault. -/
theorem result_keeps_of_read {octets : List UInt8} (h : t.read p.text = .ok octets) :
    (keeps t p).result = .ok (isOpen t p) := by
  have hcovers : ∀ f, covers t p ≠ .error (.fault f) := by
    intro f
    rw [covers, TextFile.stream_of_read h]
    simp only [bind, Except.bind]
    split
    · nofun
    · rw [TextFile.streamEnd]
      cases (Text.stream octets).error <;> nofun
  delta keeps isOpen
  rcases hc : covers t p with (e | f) | b
  · rfl
  · exact absurd hc (hcovers f)
  · cases b <;> rfl

theorem result_filter_of_read (h : ∀ p ∈ files, ∃ octets, t.read p.text = .ok octets) :
    (filter t files).result = .ok (files.filter (isOpen t)) := by
  induction files with
  | nil => rfl
  | cons p rest ih =>
    obtain ⟨⟨octets, hp⟩, hrest⟩ := List.forall_mem_cons.mp h
    refine Traced.result_bind_eq_ok.mpr ⟨_, result_keeps_of_read hp, ?_⟩
    refine Traced.result_bind_eq_ok.mpr ⟨_, ih hrest, ?_⟩
    rw [List.filter_cons]
    rfl

/-- Whether a file is suppressed as a whole depends on what its path leads to. -/
theorem isOpen_congr {t' : FileTree} (h : t.stat p.text = t'.stat p.text) :
    isOpen t p = isOpen t' p := by
  delta isOpen
  rw [covers, covers, TextFile.stream, TextFile.stream, TextFile.octets_congr h]

end Blanket

namespace IgnoreList

open Text

variable {t : FileTree} {base : Path} {rule : PatternRule} {m m' : IgnoreList} {e f : Entry}
  {lines : List String}

/-- Holds for a pattern of the kind that a list keeps, with the files that it finds. -/
structure Finds (t : FileTree) (base : Path) (rule : PatternRule) (e : Entry) : Prop where
  noRemark : isRemark e.pattern = false
  files : Glob.resolvePattern t base (rule.expand e.pattern) = .ok e.files
  nonempty : e.files ≠ []

theorem Finds.unique (he : Finds t base rule e) (hf : Finds t base rule f)
    (h : f.pattern = e.pattern) : f = e := by
  obtain ⟨_, efiles⟩ := e
  obtain ⟨_, ffiles⟩ := f
  cases h
  have hfiles := he.files
  rw [hf.files] at hfiles
  cases hfiles
  rfl

theorem patterns_put : (m.put e).map Entry.pattern =
    if e.pattern ∈ m.map Entry.pattern then m.map Entry.pattern
    else m.map Entry.pattern ++ [e.pattern] :=
  map_setUnder Entry.pattern m e

/-- A list has each pattern once. -/
theorem nodup_put (h : (m.map Entry.pattern).Nodup) : ((m.put e).map Entry.pattern).Nodup :=
  nodup_setUnder h

/-- To set a pattern again that is there with these files changes nothing. -/
theorem mem_put (h : ∀ f ∈ m, f.pattern = e.pattern → f = e) : f ∈ m.put e ↔ f ∈ m ∨ f = e := by
  have hput : f ∈ m.put e ↔ f = e ∨ f ∈ m ∧ f.pattern ≠ e.pattern :=
    mem_setUnder Entry.pattern m e
  rw [hput, or_comm]
  constructor
  · exact Or.imp_left And.left
  · rintro (hf | rfl)
    · by_cases hpattern : f.pattern = e.pattern
      · exact Or.inr (h f hf hpattern)
      · exact Or.inl ⟨hf, hpattern⟩
    · exact Or.inr rfl

/-- One line adds the pattern on it if that finds a file. -/
theorem result_readLine {line : String} (h : (readLine t base rule m line).result = .ok m') :
    m' = m ∧ (∀ files, ¬ Finds t base rule ⟨line, files⟩) ∨
      ∃ files, Finds t base rule ⟨line, files⟩ ∧ m' = m.put ⟨line, files⟩ := by
  rw [readLine] at h
  split at h
  · next hremark =>
    refine Or.inl ⟨(Except.ok.inj h).symm, fun files hfinds => ?_⟩
    rw [hfinds.noRemark] at hremark
    cases hremark
  next hremark =>
  obtain ⟨files, hfiles, h⟩ := Traced.result_bind_eq_ok.mp h
  rw [Traced.result_ofExcept, liftFault_eq_ok] at hfiles
  split at h
  · next hempty =>
    refine Or.inl ⟨(Except.ok.inj h).symm, fun files' hfinds => hfinds.nonempty ?_⟩
    have := hfinds.files
    rw [hfiles] at this
    cases this
    exact List.isEmpty_iff.mp hempty
  · next hempty =>
    exact Or.inr ⟨files, ⟨by simpa using hremark, hfiles, by simpa using hempty⟩,
      (Except.ok.inj h).symm⟩

/-- What lines add to a list, and that it stays one with each pattern once. -/
theorem result_readLines (h : (readLines t base rule m lines).result = .ok m')
    (hm : ∀ e ∈ m, Finds t base rule e) (hnodup : (m.map Entry.pattern).Nodup) :
    (m'.map Entry.pattern).Nodup ∧
      ∀ e, e ∈ m' ↔ e ∈ m ∨ e.pattern ∈ lines ∧ Finds t base rule e := by
  induction lines generalizing m with
  | nil =>
    cases h
    exact ⟨hnodup, by simp⟩
  | cons line rest ih =>
    rw [readLines] at h
    obtain ⟨m₁, hline, h⟩ := Traced.result_bind_eq_ok.mp h
    rcases result_readLine hline with ⟨hm₁, hno⟩ | ⟨files, hfinds, rfl⟩
    · rw [hm₁] at h
      obtain ⟨hnodup', hmem⟩ := ih h hm hnodup
      refine ⟨hnodup', fun e => ?_⟩
      rw [hmem, List.mem_cons]
      refine or_congr_right (and_congr_left fun he => ?_)
      refine ⟨Or.inr, fun hp => hp.resolve_left fun hp => ?_⟩
      subst hp
      exact hno e.files he
    · have hput : ∀ f, f ∈ m.put ⟨line, files⟩ ↔ f ∈ m ∨ f = ⟨line, files⟩ :=
        fun f => mem_put fun g hg hp => hfinds.unique (hm g hg) hp
      have hall : ∀ f ∈ m.put ⟨line, files⟩, Finds t base rule f := by
        intro f hf
        rcases (hput f).mp hf with hf | rfl
        · exact hm f hf
        · exact hfinds
      obtain ⟨hnodup', hmem⟩ := ih h hall (nodup_put hnodup)
      refine ⟨hnodup', fun e => ?_⟩
      rw [hmem, hput, List.mem_cons, or_assoc]
      refine or_congr_right ?_
      constructor
      · rintro (rfl | ⟨hp, he⟩)
        · exact ⟨Or.inl rfl, hfinds⟩
        · exact ⟨Or.inr hp, he⟩
      · rintro ⟨hp | hp, he⟩
        · exact Or.inl (hfinds.unique he hp)
        · exact Or.inr ⟨hp, he⟩

/-- A list that was read is made of its lines. -/
theorem readLines_of_read {p : Path} (h : (read t p base rule).result = .ok m)
    (hlines : TextFile.lines t p = .ok lines) : (readLines t base rule [] lines).result = .ok m := by
  rw [read] at h
  obtain ⟨stream, hstream, h⟩ := Traced.result_bind_eq_ok.mp h
  obtain ⟨m', hread, h⟩ := Traced.result_bind_eq_ok.mp h
  obtain ⟨_, hend, h⟩ := Traced.result_bind_eq_ok.mp h
  cases h
  rw [Traced.result_ofExcept] at hstream hend
  have hsame : stream.lines.map String.ofList = lines := by
    rw [TextFile.lines, hstream] at hlines
    simp only [bind, Except.bind, hend] at hlines
    exact Except.ok.inj hlines
  rwa [hsame] at hread

/-- A list was read only if every pattern in it could be looked up. -/
theorem resolves_of_readLines (h : (readLines t base rule m lines).result = .ok m') :
    ∀ line ∈ lines, isRemark line = false →
      ∃ files, Glob.resolvePattern t base (rule.expand line) = .ok files := by
  induction lines generalizing m with
  | nil => simp
  | cons line rest ih =>
    rw [readLines] at h
    obtain ⟨m₁, hline, h⟩ := Traced.result_bind_eq_ok.mp h
    refine List.forall_mem_cons.mpr ⟨fun hremark => ?_, ih h⟩
    rw [readLine, if_neg (by simp [hremark])] at hline
    obtain ⟨files, hfiles, -⟩ := Traced.result_bind_eq_ok.mp hline
    rw [Traced.result_ofExcept, liftFault_eq_ok] at hfiles
    exact ⟨files, hfiles⟩

/-- A list is read if every pattern in it can be looked up. -/
theorem exists_readLines (h : ∀ line ∈ lines, isRemark line = false →
    ∃ files, Glob.resolvePattern t base (rule.expand line) = .ok files) (m : IgnoreList) :
    ∃ m', (readLines t base rule m lines).result = .ok m' := by
  induction lines generalizing m with
  | nil => exact ⟨m, rfl⟩
  | cons line rest ih =>
    obtain ⟨hline, hrest⟩ := List.forall_mem_cons.mp h
    obtain ⟨m₁, hm₁⟩ : ∃ m₁, (readLine t base rule m line).result = .ok m₁ := by
      rw [readLine]
      split
      · exact ⟨m, rfl⟩
      · next hremark =>
        obtain ⟨files, hfiles⟩ := hline (by simpa using hremark)
        rw [hfiles]
        cases files with
        | nil => exact ⟨m, rfl⟩
        | cons p rest => exact ⟨_, rfl⟩
    obtain ⟨m', hm'⟩ := ih hrest m₁
    exact ⟨m', by rw [readLines]; exact Traced.result_bind_eq_ok.mpr ⟨m₁, hm₁, hm'⟩⟩

/-- A list is read from its lines if every pattern on them can be looked up. -/
theorem exists_read {p : Path} (hlines : TextFile.lines t p = .ok lines)
    (h : ∀ line ∈ lines, isRemark line = false →
      ∃ files, Glob.resolvePattern t base (rule.expand line) = .ok files) :
    ∃ m, (read t p base rule).result = .ok m ∧
      ∀ e, e ∈ m ↔ e.pattern ∈ lines ∧ Finds t base rule e := by
  obtain ⟨m, hm⟩ := exists_readLines h []
  obtain ⟨-, hmem⟩ := result_readLines hm (by simp) (by simp)
  refine ⟨m, ?_, fun e => by simpa using hmem e⟩
  rw [TextFile.lines] at hlines
  obtain ⟨stream, hstream, hlines⟩ := bind_eq_ok.mp hlines
  obtain ⟨_, hend, hlines⟩ := bind_eq_ok.mp hlines
  cases hlines
  rw [read]
  refine Traced.result_bind_eq_ok.mpr ⟨stream, hstream, ?_⟩
  refine Traced.result_bind_eq_ok.mpr ⟨m, hm, ?_⟩
  exact Traced.result_bind_eq_ok.mpr ⟨_, hend, rfl⟩

/-- A list that was read has lines. -/
theorem exists_lines_of_read {p : Path} (h : (read t p base rule).result = .ok m) :
    ∃ lines, TextFile.lines t p = .ok lines := by
  rw [read] at h
  obtain ⟨stream, hstream, h⟩ := Traced.result_bind_eq_ok.mp h
  obtain ⟨_, -, h⟩ := Traced.result_bind_eq_ok.mp h
  obtain ⟨_, hend, -⟩ := Traced.result_bind_eq_ok.mp h
  rw [TextFile.lines]
  exact ⟨_, bind_eq_ok.mpr ⟨stream, hstream, bind_eq_ok.mpr ⟨_, hend, rfl⟩⟩⟩

theorem keeps_iff {line : String} : m.keeps line = true ↔ ∃ f ∈ m, f.pattern = line ∧ f.files ≠ [] := by
  simp [keeps]

theorem mem_files {p : Path} : p ∈ m.files ↔ ∃ e ∈ m, p ∈ e.files := by
  rw [files, List.mem_eraseDups, List.mem_flatMap]

/-- What is left of a list without the files that are suppressed as a whole. -/
theorem result_withoutCovered (h : (m.withoutCovered t).result = .ok m') :
    m' = (m.map fun e => { e with files := e.files.filter (Blanket.isOpen t) }).filter
      (!·.files.isEmpty) := by
  induction m generalizing m' with
  | nil => exact (Except.ok.inj h).symm
  | cons e rest ih =>
    rw [withoutCovered] at h
    obtain ⟨files, hfiles, h⟩ := Traced.result_bind_eq_ok.mp h
    obtain ⟨others, hothers, h⟩ := Traced.result_bind_eq_ok.mp h
    rw [List.map_cons, List.filter_cons, ← Blanket.result_filter hfiles, ← ih hothers]
    rw [Traced.result_pure] at h
    cases h
    cases files <;> rfl

/-- Nothing fails on the way if all files can be read. -/
theorem exists_withoutCovered (h : ∀ e ∈ m, ∀ p ∈ e.files, ∃ octets, t.read p.text = .ok octets) :
    ∃ m', (m.withoutCovered t).result = .ok m' := by
  induction m with
  | nil => exact ⟨[], rfl⟩
  | cons e rest ih =>
    obtain ⟨he, hrest⟩ := List.forall_mem_cons.mp h
    obtain ⟨others, hothers⟩ := ih hrest
    rw [withoutCovered]
    exact ⟨_, Traced.result_bind_eq_ok.mpr ⟨_, Blanket.result_filter_of_read he,
      Traced.result_bind_eq_ok.mpr ⟨others, hothers, Traced.result_pure _⟩⟩⟩

end IgnoreList
end LintDebt
