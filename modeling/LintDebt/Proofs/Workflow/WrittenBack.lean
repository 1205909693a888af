import LintDebt.Proofs.FileTree.Refusals
import LintDebt.Proofs.Text.Decoding
import LintDebt.Proofs.Text.Joined
import LintDebt.Proofs.Workflow.OwnPieces
import Mathlib.Data.Finset.Card

/-! # What is read back from an annotated file

The pieces that are read from an annotated file are the pieces that were read before with the comments
of the plan between them: no text is changed by being written and read again. Where there is no text
to begin with, nothing is written, and the annotation fails with an error of the tool's, unless the
path is one about which the system tells nothing. -/

namespace LintDebt

namespace Suppression

/-- How many comments a plan adds to a file. -/
def Plan.added (plan : Plan) : Style → Nat
  | .block => 2 * plan.length
  | .nextLine => (plan.map Group.start).toFinset.card

variable {plan : Plan} {updated : List Text.Units}

theorem length_comments (plan : Plan) (style : Style) :
    (plan.comments style).length = plan.added style := by
  cases style with
  | block =>
    rw [Plan.comments, Plan.added]
    induction plan with
    | nil => rfl
    | cons g rest ih =>
      simp only [List.flatMap_cons, List.length_append, ih, List.length_cons, List.length_nil]
      omega
  | nextLine =>
    have hset : (plan.map Group.start).toFinset = (plan.map Group.start).eraseDups.toFinset := by
      ext start
      rw [List.mem_toFinset, List.mem_toFinset, List.mem_eraseDups]
    rw [Plan.comments, Plan.byStart, List.length_map, List.length_map, Plan.added, hset,
      List.toFinset_card_of_nodup (nodup_eraseDups _)]

end Suppression

namespace Workflow

open Job FileTree Suppression Text

variable {σ : Type} {p : Path} {plan : Plan} {style : Style} {w : World σ} {t : FileTree}
  {text : List Char} {updated : List Units}

/-- Says of the trees before and after the annotation of a file what the pieces read from it have to
do with each other, and how many more they are. -/
structure WrittenBack (p : Path) (plan : Plan) (style : Style) (t t' : FileTree) (r : Int) : Prop where
  pieces : ∃ before after, TextFile.pieces t p = .ok before ∧ TextFile.pieces t' p = .ok after ∧
    plan.apply style (before.map unitsOf) = .ok (after.map unitsOf) ∧
    r = (after.length : Int) - before.length
  added : r = plan.added style

/-- The failures to read a text, with what the system tells about the path. -/
inductive Illegible (t : FileTree) (p : Path) : Failure → Prop where
  | missing (h : t.existsAt p.text = .ok false) : Illegible t p (.tool (.missing p.text))
  | unreadable (h : t.existsAt p.text = .ok true) (cause : Fault) :
    Illegible t p (.tool (.unreadable cause p.text))
  | overlong (h : t.stat p.text = .error (.refused .nameTooLong p.text none)) :
    Illegible t p (.fault (.os (.refused .nameTooLong p.text none)))

theorem exists_octets_read_back (hne : updated ≠ []) (htexts : ∀ line ∈ updated, IsText line)
    (hwhole : ∀ line ∈ updated, 0x0a ∉ line ∧ 0x0d ∉ line) : ∃ octets,
      Utf8.encodeUnits (unlines updated) = .ok octets ∧ ∀ t p, FileTree.read t p.text = .ok octets →
        ∃ after, TextFile.pieces t p = .ok after ∧ after.map unitsOf = updated := by
  obtain ⟨parts, rfl⟩ := exists_parts htexts
  have hparts : ∀ part ∈ parts, Whole part :=
    fun part hpart => whole_iff_units.mpr (hwhole _ (List.mem_map_of_mem hpart))
  refine ⟨_, encodeUnits_unlines parts, fun t p hread => ⟨_, ?_, map_unitsOf parts⟩⟩
  rw [TextFile.pieces_of_read hread, Utf8.decode_encode]
  dsimp only
  rw [pieces_intercalate (by simpa using hne) hparts]

theorem ends_annotate_writtenBack (hread : w.tree.read p.text = .ok (Utf8.encode text))
    (hplan : plan ≠ []) (hrules : OneLined plan) : (annotate p plan style).Ends w fun result t _ =>
      ((∃ r, result = .ok r) ↔ ∀ g ∈ plan, ∀ r ∈ g.rules, IsText r) ∧
        ∀ r, result = .ok r → WrittenBack p plan style w.tree t r := by
  obtain ⟨before, hbefore, hunits⟩ := pieces_of_encoded hread
  obtain ⟨updated, happly, hwhole, htexts, comments, hperm, hmix⟩ :=
    exists_interleaving style hrules text
  rw [← hunits] at happly hmix
  have hcount : updated.length = before.length + plan.added style := by
    rw [hmix.perm.length_eq, List.length_append, List.length_map, List.length_map, hperm.length_eq,
      length_comments]
  refine (ends_annotate_of_apply hplan hbefore happly).mono fun result t _ ⟨_, h⟩ => ?_
  rw [← htexts]
  by_cases hall : ∀ line ∈ updated, IsText line
  · have hne : updated ≠ [] := by
      have hsome := List.length_pos_iff.mpr (TextFile.pieces_ne_nil hbefore)
      exact List.length_pos_iff.mp (by omega)
    obtain ⟨octets, hencode, hback⟩ := exists_octets_read_back hne hall hwhole
    rw [hencode] at h
    obtain ⟨rfl, hwrite⟩ := h
    refine ⟨iff_of_true ⟨_, rfl⟩ hall, ?_⟩
    rintro r ⟨⟩
    obtain ⟨after, hafter, rfl⟩ := hback t p (read_of_write hwrite)
    rw [List.length_map] at hcount ⊢
    exact ⟨⟨before, after, hbefore, hafter, happly, rfl⟩, by omega⟩
  · obtain ⟨run, hrun⟩ := exists_encodeUnits_error fun hyes => hall ((isText_unlines updated).mp hyes)
    rw [hrun] at h
    obtain ⟨rfl, -⟩ := h
    exact ⟨iff_of_false nofun hall, nofun⟩

theorem exists_illegible (hno : ∀ text, t.read p.text ≠ .ok (Utf8.encode text)) :
    ∃ e, TextFile.pieces t p = .error e ∧ Illegible t p e := by
  cases hexists : t.existsAt p.text with
  | error e =>
    obtain ⟨rfl, hstat⟩ := existsAt_eq_error hexists
    refine ⟨_, ?_, .overlong hstat⟩
    rw [TextFile.pieces, TextFile.read, TextFile.octets, TextFile.require, hexists]
    rfl
  | ok there =>
  cases there with
  | false =>
    refine ⟨_, ?_, .missing hexists⟩
    rw [TextFile.pieces, TextFile.read, TextFile.octets, TextFile.require, hexists]
    rfl
  | true =>
  cases hread : t.read p.text with
  | error e =>
    refine ⟨_, ?_, .unreadable hexists (.os e)⟩
    rw [TextFile.pieces, TextFile.read, TextFile.octets, TextFile.require, hexists, hread]
    rfl
  | ok octets =>
  cases hdecode : Utf8.decode octets with
  | ok text => exact absurd (hread.trans (congrArg _ (Utf8.decode_eq_ok.mp hdecode))) (hno text)
  | error e =>
    refine ⟨_, ?_, .unreadable hexists (.undecodable e)⟩
    rw [TextFile.pieces_of_read hread, hdecode]

theorem ends_annotate_illegible (hno : ∀ text, w.tree.read p.text ≠ .ok (Utf8.encode text))
    (hplan : plan ≠ []) : (annotate p plan style).Ends w fun result t _ =>
      t = w.tree ∧ ∃ e, result = .error e ∧ Illegible w.tree p e := by
  obtain ⟨e, hpieces, hillegible⟩ := exists_illegible hno
  refine ends_annotate_of (fun hnil => absurd hnil hplan) (fun _ e' he' => ?_) fun _ lines hlines => ?_
  · cases hpieces.symm.trans he'
    exact ⟨rfl, e, rfl, hillegible⟩
  · cases hpieces.symm.trans hlines

/-- What is read from an annotated file is what the plan makes of the pieces that were read before,
and where there was no text nothing is written. This fails with an error of the tool's, unless the
path is overlong. -/
theorem written_back (p : Path) (plan : Plan) (style : Style) (w : World σ) :
    let run := (annotate p plan style).runFrom w
    (plan = [] → run.1 = .ok 0 ∧ run.2.tree = w.tree) ∧
    (plan ≠ [] → ∀ text, w.tree.read p.text = .ok (Utf8.encode text) → OneLined plan →
      ((∃ r, run.1 = .ok r) ↔ ∀ g ∈ plan, ∀ r ∈ g.rules, IsText r) ∧
        ∀ r, run.1 = .ok r → WrittenBack p plan style w.tree run.2.tree r) ∧
    (plan ≠ [] → (∀ text, w.tree.read p.text ≠ .ok (Utf8.encode text)) →
      run.2.tree = w.tree ∧ ∃ e, run.1 = .error e ∧ Illegible w.tree p e) := by
  intro run
  refine ⟨?_, fun hplan text hread hrules => ends_annotate_writtenBack hread hplan hrules,
    fun hplan hno => ends_annotate_illegible hno hplan⟩
  rintro rfl
  exact ⟨rfl, rfl⟩

/-- A stylesheet without an end on its last line, and one that is not there. -/
theorem written_back_sample :
    let annotated := (annotate ⟨.absolute, ["a.css"]⟩ samplePlan .block).runFrom (sheetWorld "a\r\nb")
    let missed := (annotate ⟨.absolute, ["b.css"]⟩ samplePlan .block).runFrom (sheetWorld "a\r\nb")
    (∃ r, annotated.1 = .ok r ∧ WrittenBack ⟨.absolute, ["a.css"]⟩ samplePlan .block
      (sheetWorld "a\r\nb").tree annotated.2.tree r) ∧
    missed.2.tree = (sheetWorld "a\r\nb").tree ∧ ∃ e, missed.1 = .error e ∧
      Illegible (sheetWorld "a\r\nb").tree ⟨.absolute, ["b.css"]⟩ e := by
  intro annotated missed
  obtain ⟨-, hwritten, -⟩ := written_back ⟨.absolute, ["a.css"]⟩ samplePlan .block (sheetWorld "a\r\nb")
  obtain ⟨hreturns, hback⟩ := hwritten (by decide) "a\r\nb".toList (by decide +kernel)
    (by unfold OneLined; decide)
  obtain ⟨r, hr⟩ := hreturns.mpr fun g hg r hr => by
    obtain rfl := List.mem_singleton.mp hg
    obtain rfl := List.mem_singleton.mp hr
    exact isText_units _
  have hmissing : (sheetWorld "a\r\nb").tree.read "/b.css" =
      .error (.refused .noEntry "/b.css" none) := by decide +kernel
  refine ⟨⟨r, hr, hback r hr⟩, (written_back ⟨.absolute, ["b.css"]⟩ samplePlan .block
    (sheetWorld "a\r\nb")).2.2 (by decide) fun text htext => ?_⟩
  cases hmissing.symm.trans htext

/-- A path whose name is overlong leads to no file, but this is not the error. -/
theorem ends_annotate_overlong {name : String} (hnull : '\x00' ∉ name.toList)
    (hslash : '/' ∉ name.toList) (hlong : nameLimit < name.utf8ByteSize)
    (hfits : name.utf8ByteSize < pathLimit) (hplan : plan ≠ []) :
    (∀ octets, w.tree.read (Path.text ⟨.absolute, [name]⟩) ≠ .ok octets) ∧
      (annotate ⟨.absolute, [name]⟩ plan style).Ends w fun result _ _ =>
        ¬ ∃ e, result = .error (.tool e) := by
  have hstat := stat_of_overlong w.tree hnull hslash hlong hfits
  have hexists : w.tree.existsAt (Path.text ⟨.absolute, [name]⟩) =
      .error (.refused .nameTooLong (Path.text ⟨.absolute, [name]⟩) none) := by
    rw [existsAt, hstat]
    rfl
  have hread : ∀ octets, w.tree.read (Path.text ⟨.absolute, [name]⟩) ≠ .ok octets := by
    intro octets hoctets
    cases hstat.symm.trans (read_eq_ok.mp hoctets)
  refine ⟨hread, (ends_annotate_illegible (fun text => hread _) hplan).mono ?_⟩
  rintro result t - ⟨-, e, rfl, hillegible⟩ ⟨e', ⟨⟩⟩
  cases hillegible with
  | missing h | unreadable h => cases hexists.symm.trans h

theorem unanswered_sample :
    let p : Path := ⟨.absolute, [String.ofList (List.replicate 300 'a')]⟩
    let run := (annotate p samplePlan .block).runFrom (sheetWorld "a")
    samplePlan ≠ [] ∧ (∀ octets, (sheetWorld "a").tree.read p.text ≠ .ok octets) ∧
      ¬ ∃ e, run.1 = .error (.tool e) := by
  have hplain : ∀ c, c ≠ 'a' → c ∉ (String.ofList (List.replicate 300 'a')).toList := by
    intro c hc
    rw [String.toList_ofList, List.mem_replicate]
    exact fun h => hc h.2
  exact ⟨by decide, ends_annotate_overlong (hplain _ (by decide)) (hplain _ (by decide))
    (by decide +kernel) (by decide +kernel) (by decide)⟩

end Workflow
end LintDebt
