import LintDebt.Proofs.Blanket
import LintDebt.Proofs.Suppression.Leading
import LintDebt.Proofs.Workflow.OwnPieces

/-! # Files that stay open

A file that is suppressed rule by rule is not meant to be suppressed as a whole. Where its first line
that is not blank is its own, annotating it does not change that line; where this line comes from the
first comment, it is one that disables every rule exactly if it is no next-line comment and names
nothing. Nothing keeps a linter from reporting such rules, and a rule that is left out is one. -/

namespace LintDebt

namespace Workflow

open Job FileTree Suppression Text

variable {σ : Type} {p : Path} {rest : Plan} {style : Style} {w : World σ} {text : List Char}
  {g : Group}

/-- Holds for a plan with which an open file of this text comes to be suppressed as a whole: the first
comment is a block comment that names nothing on its first line, and only blank lines are above it. -/
structure Closes (plan : Plan) (style : Style) (text : List Char) : Prop where
  block : style = .block
  texts : ∀ g ∈ plan, ∀ r ∈ g.rules, IsText r
  leads : ∃ g ∈ plan.head?, Nameless (g.rules.map ofUnits) ∧
    ∀ line ∈ (pieces (normalize (unmarked text))).take (g.start - 1).toNat, trim line = []

theorem exists_spelled_parts {own : List (List Char)} {c : Comment} {behind : List Units} {k : Nat}
    (htexts : ∀ line ∈ (own.map units).take k ++ c.text :: behind, IsText line) :
    ∃ others : List (List Char), (own.map units).take k ++ c.text :: behind =
      (own.take k ++ spelled c.command.text (c.rules.map ofUnits) :: others).map units := by
  obtain ⟨hcomment, hbehind⟩ :=
    List.forall_mem_cons.mp fun line hline => htexts line (List.mem_append_right _ hline)
  obtain ⟨others, rfl⟩ := exists_parts hbehind
  obtain ⟨names, hnames⟩ := exists_parts ((isText_comment c).mp hcomment)
  have hspelled : c.rules.map ofUnits = names := by
    rw [hnames, List.map_map]
    exact (List.map_congr_left fun name _ => ofUnits_units name).trans (List.map_id names)
  refine ⟨others, ?_⟩
  rw [hspelled, List.map_append, List.map_cons, ← commentLine_map_units, ← hnames, List.map_take]
  rfl

/-- The first line of the comment for a leading group, which the lines above leave to it. -/
theorem covers_of_leading {t : FileTree} {k : Nat} {c : Comment} {others : List (List Char)}
    (hopen : (Blanket.firstLine? (pieces (normalize (unmarked text)))).any Blanket.isBlanket = false)
    (hread : t.read p.text = .ok (Utf8.encode (['\n'].intercalate ((pieces (normalize text)).take k ++
      spelled c.command.text (c.rules.map ofUnits) :: others)))) : ∃ covered,
      Blanket.covers t p = .ok covered ∧ (covered = true ↔
        Blanket.isBlanket (trim (opening (spelled c.command.text (c.rules.map ofUnits)))) = true ∧
          ∀ line ∈ (pieces (normalize (unmarked text))).take k, trim line = []) := by
  refine ⟨_, Blanket.covers_of_encoded hread, ?_⟩
  have hown : pieces (normalize text) ≠ [] := List.splitOn_ne_nil '\n' (normalize text)
  have hmark : unmarked (spelled c.command.text (c.rules.map ofUnits)) =
      spelled c.command.text (c.rules.map ofUnits) := by
    obtain ⟨behind, hspelled⟩ := exists_spelled c.command.text (c.rules.map ofUnits)
    rw [hspelled]
    rfl
  have hwhole : ∀ line ∈ (pieces (normalize (unmarked text))).take k, Whole line :=
    fun line hline => whole_of_mem_pieces (List.mem_of_mem_take hline)
  rw [unmarked_between hown hmark, ← pieces_unmarked,
    Blanket.firstLine?_intercalate hwhole (trim_opening_spelled _ _), ← Blanket.firstLine?_eq_none]
  have hsplit := Blanket.firstLine?_append ((pieces (normalize (unmarked text))).take k)
    ((pieces (normalize (unmarked text))).drop k)
  rw [List.take_append_drop] at hsplit
  rw [hsplit] at hopen
  cases hfirst : Blanket.firstLine? ((pieces (normalize (unmarked text))).take k) with
  | none => simp
  | some line =>
    rw [hfirst] at hopen
    simpa using hopen

/-- The comment for a leading group is taken for a blanket comment if it names nothing. -/
theorem isBlanket_leading (g : Group) (plan : Plan) (style : Style) :
    Blanket.isBlanket (trim (opening (spelled (g.leading plan style).command.text
      ((g.leading plan style).rules.map ofUnits)))) = true ↔
        style = .block ∧ Nameless (g.rules.map ofUnits) := by
  cases style with
  | block => exact isBlanket_disable.trans (and_iff_right rfl).symm
  | nextLine => exact iff_of_false (by rw [Bool.not_eq_true]; exact isBlanket_disableNextLine) nofun

theorem ends_annotate_leading (hread : w.tree.read p.text = .ok (Utf8.encode text))
    (hopen : Blanket.covers w.tree p = .ok false) (hleads : Leads g (g :: rest)) :
    (annotate p (g :: rest) style).Ends w fun _ t _ => ∃ covered, Blanket.covers t p = .ok covered ∧
      (covered = true ↔ Closes (g :: rest) style text) := by
  rw [Blanket.covers_of_encoded hread, Except.ok.injEq] at hopen
  obtain ⟨before, hbefore, hunits⟩ := pieces_of_encoded hread
  obtain ⟨behind, happly⟩ :=
    exists_apply_leading (map_pieces_ne_nil units (normalize text)) hleads style
  generalize hupdated : List.take _ _ ++ _ :: behind = updated at happly
  have htexts := isText_apply happly
  rw [← hunits] at happly
  refine (ends_annotate_of_apply (List.cons_ne_nil g rest) hbefore happly).mono
    fun _ t _ ⟨_, h⟩ => ?_
  by_cases hall : ∀ g' ∈ g :: rest, ∀ r ∈ g'.rules, IsText r
  · obtain ⟨others, hparts⟩ := exists_spelled_parts (hupdated ▸ htexts.mpr hall)
    rw [← hupdated, hparts, encodeUnits_unlines] at h
    obtain ⟨covered, hcovers, hiff⟩ := covers_of_leading hopen (read_of_write h.2)
    refine ⟨covered, hcovers, hiff.trans ?_⟩
    rw [isBlanket_leading]
    constructor
    · rintro ⟨⟨hblock, hnameless⟩, hblank⟩
      exact ⟨hblock, hall, g, rfl, hnameless, hblank⟩
    · rintro ⟨hblock, -, _, ⟨⟩, hnameless, hblank⟩
      exact ⟨⟨hblock, hnameless⟩, hblank⟩
  · obtain ⟨run, hrun⟩ := exists_encodeUnits_error fun hyes =>
      hall (htexts.mp ((isText_unlines _).mp hyes))
    rw [hrun] at h
    refine ⟨false, ?_, iff_of_false nofun fun hcloses => hall hcloses.texts⟩
    have hempty : t.read p.text = .ok (Utf8.encode []) := read_of_write h.2
    exact Blanket.covers_of_encoded hempty

/-- An open file stays open when it is annotated, unless the plan closes it. -/
theorem covers_iff_closes (p : Path) (violations : List Violation) (style : Style) (w : World σ)
    (text : List Char) (hread : w.tree.read p.text = .ok (Utf8.encode text))
    (hopen : Blanket.covers w.tree p = .ok false) (hmade : ∀ v ∈ violations, v.Made) :
    let run := (annotate p (.ofViolations violations) style).runFrom w
    ∃ covered, Blanket.covers run.2.tree p = .ok covered ∧
      (covered = true ↔ Closes (.ofViolations violations) style text) := by
  intro run
  cases hplan : Plan.ofViolations violations with
  | nil =>
    have htree : run.2.tree = w.tree := by
      simp only [run, hplan]
      rfl
    refine ⟨false, htree ▸ hopen, iff_of_false nofun fun hcloses => ?_⟩
    obtain ⟨g, hg, -⟩ := hcloses.leads
    cases hg
  | cons g rest =>
    simp only [run, hplan]
    exact ends_annotate_leading hread hopen (leads_ofViolations hmade hplan)

/-- Behind a blank line, a rule that is named and ends before the line does. -/
theorem covers_iff_closes_sample :
    let violations : List Violation := [⟨.error, 2, 2, unitsOf "r*/\nr", []⟩]
    let run := (annotate ⟨.absolute, ["a.css"]⟩ (.ofViolations violations) .block).runFrom
      (sheetWorld "\na{}\n")
    Blanket.covers run.2.tree ⟨.absolute, ["a.css"]⟩ = .ok false := by
  intro violations run
  have hmade : ∀ v ∈ violations, v.Made := by
    intro v hv
    rw [Violation.made_iff]
    revert v
    decide
  obtain ⟨covered, hcovers, hcloses⟩ := covers_iff_closes ⟨.absolute, ["a.css"]⟩ violations .block
    (sheetWorld "\na{}\n") "\na{}\n".toList (by decide +kernel) (by decide +kernel) hmade
  have hplan : Plan.ofViolations violations = [⟨2, 2, [unitsOf "r*/\nr"]⟩] := by
    decide +kernel
  cases covered with
  | false => exact hcovers
  | true =>
    obtain ⟨g, hg, hnameless, -⟩ := (hcloses.mp rfl).leads
    rw [hplan] at hg
    cases hg
    exact absurd hnameless (by decide +kernel)

/-- A rule that is left out closes a file whose first line has the error. -/
theorem closed_sample :
    let violations : List Violation := [⟨.error, 1, 1, [], []⟩]
    let run := (annotate ⟨.absolute, ["a.css"]⟩ (.ofViolations violations) .block).runFrom
      (sheetWorld "a\n")
    (∀ v ∈ violations, v.line ≤ v.endLine) ∧
      Blanket.covers (sheetWorld "a\n").tree ⟨.absolute, ["a.css"]⟩ = .ok false ∧
      Blanket.covers run.2.tree ⟨.absolute, ["a.css"]⟩ = .ok true := by
  decide +kernel

end Workflow
end LintDebt
