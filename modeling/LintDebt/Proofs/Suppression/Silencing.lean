import LintDebt.Proofs.Suppression.Brackets
import Mathlib.Data.List.Nodup

/-! # Every error is silenced where it was reported

The first line of an error is the line that a linter reports it on. In the next-line style that line
has one comment above it, with the rules of all errors on it. In the block style the last comment
above it that names the rule turns the rule off, because what closes on an earlier line stands above
what opens on this one; where the errors end does not matter for that. -/

namespace LintDebt.Suppression

open Page

/-- The page of a text with the comments of a plan. -/
def Plan.page (plan : Plan) (style : Style) (lines : List Text.Units) : Except Fault Page :=
  match style with
  | .block => plan.foldlM enclose (ofLines lines)
  | .nextLine => plan.byStart.foldlM announce (ofLines lines)

def Mark.comment? : Mark → Option Comment
  | .comment c => some c
  | .line _ _ => none

/-- The comments between a line and the line before it. -/
def commentsOver (number : Nat) (marks : List Mark) : List Comment :=
  ((marksAbove number marks).reverse.takeWhile (·.line?.isNone)).reverse.filterMap Mark.comment?

/-- Holds of the comments over a line if they announce exactly the rules of the errors on it. -/
structure Announces (violations : List Violation) (number : Nat) (comments : List Comment) :
    Prop where
  none : (∀ v, Suppressed violations v → v.line ≠ number) → comments = []
  one : (∃ v, Suppressed violations v ∧ v.line = number) → ∃ rules,
    comments = [⟨.disableNextLine, rules⟩] ∧ rules.Nodup ∧
      ∀ r, r ∈ rules ↔ ∃ v, Suppressed violations v ∧ v.line = number ∧ v.rule = r

/-- Holds if every error is silenced on the line that it was reported on. -/
def Silences (style : Style) (violations : List Violation) (length : Nat) (marks : List Mark) :
    Prop :=
  match style with
  | .nextLine => ∀ number, 1 ≤ number → number ≤ length →
    Announces violations number (commentsOver number marks)
  | .block => ∀ v, Suppressed violations v →
    (commandsFor v.rule (marksAbove v.line.toNat marks)).getLast? = some .disable

variable {violations : List Violation} {plan : Plan} {lines : List Text.Units} {i : Nat}
  {r : Text.Units}

theorem apply_eq_page (plan : Plan) (style : Style) (lines : List Text.Units) :
    plan.apply style lines = (plan.page style lines).map Page.lines := by
  cases style
  · rw [Plan.apply, Plan.page]
    cases plan.foldlM enclose (ofLines lines) <;> rfl
  · rw [Plan.apply, Plan.page]
    cases plan.byStart.foldlM announce (ofLines lines) <;> rfl

section announcing

/-- What announces the rules of an entry. -/
def announcement (entry : Int × List Text.Units) : Comment := ⟨.disableNextLine, entry.2⟩

/-- The line with this number and the announcements above it. -/
def announcedAt (entries : List (Int × List Text.Units)) (line : Text.Units) (i : Nat) : Slot :=
  ⟨(entries.filter (lineOf ·.1 = i)).map announcement, line, []⟩

/-- The page of a text with the announcements of these entries. -/
def announced (entries : List (Int × List Text.Units)) (lines : List Text.Units) : Page :=
  build (announcedAt entries) lines ((entries.filter ((lines.length : Int) < ·.1)).map announcement)

variable {entries : List (Int × List Text.Units)}

theorem announce_announced (hlines : lines ≠ []) (entry : Int × List Text.Units) :
    (announced entries lines).announce entry = .ok (announced (entries ++ [entry]) lines) := by
  have hslots : announcedAt (entries ++ [entry]) = fun line i =>
      if lineOf entry.1 = i then (announcedAt entries line i).addAbove (announcement entry)
      else announcedAt entries line i := by
    funext line i
    by_cases hi : lineOf entry.1 = i <;> simp [announcedAt, Slot.addAbove, hi]
  have htail : ((entries ++ [entry]).filter ((lines.length : Int) < ·.1)).map announcement =
      (entries.filter ((lines.length : Int) < ·.1)).map announcement ++
        if lines.length < entry.1 then [announcement entry] else [] := by
    by_cases hpast : lines.length < entry.1 <;> simp [hpast]
  rw [announced, announced, hslots, htail]
  exact add_build hlines

theorem foldlM_announce_announced (hlines : lines ≠ []) (rest done : List (Int × List Text.Units)) :
    rest.foldlM announce (announced done lines) = .ok (announced (done ++ rest) lines) := by
  induction rest generalizing done with
  | nil => rw [List.append_nil]; rfl
  | cons entry rest ih =>
    rw [List.foldlM_cons, announce_announced hlines, List.append_cons done entry rest]
    exact ih (done ++ [entry])

theorem announced_nil : announced [] lines = ofLines lines :=
  around_nil

/-- Over a line stand its announcements and nothing else. -/
theorem commentsOver_announced (hi : i < lines.length) :
    commentsOver (i + 1) (announced entries lines).marks =
      (entries.filter (lineOf ·.1 = i + 1)).map announcement := by
  have hcomments : ∀ cs : List Comment, (cs.map Mark.comment).filterMap Mark.comment? = cs := by
    intro cs
    induction cs with
    | nil => rfl
    | cons c rest ih => rw [List.map_cons, List.filterMap_cons_some (f := Mark.comment?) rfl, ih]
  have habove : ∀ cs : List Comment, ∀ m ∈ (cs.map Mark.comment).reverse, m.line?.isNone = true := by
    intro cs m hm
    obtain ⟨c, -, rfl⟩ := List.mem_map.mp (List.mem_reverse.mp hm)
    rfl
  -- The marks before the comments end with the line before, if there is one.
  have hbefore : (((lines.take i).zipIdx 1).flatMap fun p =>
      (announcedAt entries p.1 p.2).marks p.2).reverse.takeWhile (·.line?.isNone) = [] := by
    rcases (lines.take i).eq_nil_or_concat with hnil | ⟨init, last, hlast⟩
    · rw [hnil]
      rfl
    · rw [hlast, List.concat_eq_append, List.zipIdx_append, List.flatMap_append]
      simp [announcedAt, Slot.marks, Mark.line?]
  rw [commentsOver, announced, marksAbove_build hi, List.reverse_append,
    List.takeWhile_append_of_pos (habove _), hbefore, List.append_nil, List.reverse_reverse,
    hcomments]
  rfl

end announcing

theorem mem_starts {start : Int} : start ∈ (Plan.ofViolations violations).map Group.start ↔
    ∃ v, Suppressed violations v ∧ v.line = start := by
  rw [List.mem_map]
  constructor
  · rintro ⟨g, hg, rfl⟩
    obtain ⟨v, hv, rfl⟩ := mem_plan.mp hg
    exact ⟨v, hv, rfl⟩
  · rintro ⟨v, hv, rfl⟩
    obtain ⟨g, hg, hrange, -⟩ := exists_group hv
    exact ⟨g, hg, congrArg Prod.fst hrange⟩

theorem mem_rulesAt {start : Int} : r ∈ (Plan.ofViolations violations).rulesAt start ↔
    ∃ v, Suppressed violations v ∧ v.line = start ∧ v.rule = r := by
  simp only [Plan.rulesAt, List.mem_eraseDups, List.mem_flatMap, List.mem_filter, decide_eq_true_eq]
  constructor
  · rintro ⟨g, ⟨hg, hstart⟩, hr⟩
    obtain ⟨v, hv, hrange, hrule⟩ := (mem_rules hg).mp hr
    exact ⟨v, hv, (congrArg Prod.fst hrange).trans hstart, hrule⟩
  · rintro ⟨v, hv, hline, hrule⟩
    obtain ⟨g, hg, hrange, hmem⟩ := exists_group hv
    exact ⟨g, ⟨hg, (congrArg Prod.fst hrange).trans hline⟩, hrule ▸ hmem⟩

/-- The entries that go to a line: one if an error is on it, none otherwise. -/
theorem filter_byStart (hfirst : ∀ v, Suppressed violations v → 1 ≤ v.line) (number : Nat) :
    (Plan.ofViolations violations).byStart.filter (lineOf ·.1 = number) =
      if (number : Int) ∈ (Plan.ofViolations violations).map Group.start then
        [((number : Int), (Plan.ofViolations violations).rulesAt number)] else [] := by
  have hstarts : ∀ start ∈ ((Plan.ofViolations violations).map Group.start).eraseDups,
      decide (lineOf start = number) = (start == (number : Int)) := by
    intro start hstart
    rw [List.mem_eraseDups, mem_starts] at hstart
    obtain ⟨v, hv, rfl⟩ := hstart
    have hle := hfirst v hv
    rw [Bool.eq_iff_iff, decide_eq_true_eq, beq_iff_eq, lineOf]
    omega
  have hone : ((Plan.ofViolations violations).map Group.start).eraseDups.filter (· == (number : Int)) =
      if (number : Int) ∈ (Plan.ofViolations violations).map Group.start then [(number : Int)]
      else [] := by
    rw [List.filter_beq, (nodup_eraseDups _).count]
    simp only [List.mem_eraseDups]
    split <;> rfl
  rw [Plan.byStart, List.filter_map, show ((fun e : Int × List Text.Units =>
      decide (lineOf e.1 = number)) ∘ fun start => (start, (Plan.ofViolations violations).rulesAt start)) =
        fun start => decide (lineOf start = number) from rfl, List.filter_congr hstarts, hone]
  split <;> rfl

theorem announces_announced (hfirst : ∀ v, Suppressed violations v → 1 ≤ v.line)
    (hi : i < lines.length) : Announces violations (i + 1) (commentsOver (i + 1)
      (announced (Plan.ofViolations violations).byStart lines).marks) := by
  rw [commentsOver_announced hi, filter_byStart hfirst]
  refine ⟨fun hnone => ?_, fun hone => ?_⟩
  · rw [if_neg fun hmem => ?_]
    · rfl
    · obtain ⟨v, hv, hline⟩ := mem_starts.mp hmem
      exact hnone v hv hline
  · rw [if_pos (mem_starts.mpr hone)]
    exact ⟨_, rfl, nodup_eraseDups _, fun r => mem_rulesAt⟩

/-- The last comment above the first line of an error that names its rule turns the rule off. -/
theorem getLast?_commandsFor_around {v : Violation} (hv : Suppressed violations v)
    (hfirst : 1 ≤ v.line) (hlast : v.line ≤ lines.length) :
    (commandsFor v.rule (marksAbove v.line.toNat
      (around (Plan.ofViolations violations) lines).marks)).getLast? = some .disable := by
  obtain ⟨i, hi⟩ : ∃ i : Nat, v.line = i + 1 := ⟨(v.line - 1).toNat, by omega⟩
  obtain ⟨g, hg, hrange, hrule⟩ := exists_group hv
  have hopens : 0 < opensAt ((Plan.ofViolations violations).naming v.rule) (i + 1) := by
    have hstart : g.start = v.line := congrArg Prod.fst hrange
    refine List.countP_pos_iff.mpr ⟨g, mem_naming.mpr ⟨hg, hrule⟩, ?_⟩
    rw [decide_eq_true_eq, hstart, hi, lineOf]
    omega
  have hoff := (isOff_append_opens ((List.range' 1 i).flatMap
    (commandsAt ((Plan.ofViolations violations).naming v.rule)))
    (opensAt ((Plan.ofViolations violations).naming v.rule) (i + 1))).mpr (Or.inl hopens)
  rw [show v.line.toNat = i + 1 by omega, commandsFor_marksAbove (by omega)]
  simpa only [isOff, decide_eq_true_eq] using hoff

/-- In either style the comments of a plan silence every error on the line that it was reported
on. -/
theorem silences_where_reported (style : Style) (hlines : lines ≠ [])
    (hline : ∀ v ∈ violations, v.severity = .error → 1 ≤ v.line ∧ v.line ≤ lines.length) :
    ∃ page, (Plan.ofViolations violations).page style lines = .ok page ∧
      (Plan.ofViolations violations).apply style lines = .ok (page.marks.map Mark.text) ∧
      page.marks.filterMap Mark.line? = lines.zipIdx 1 ∧
      Silences style violations lines.length page.marks := by
  have hfirst : ∀ v, Suppressed violations v → 1 ≤ v.line := fun v hv => (hline v hv.1 hv.2).1
  simp only [apply_eq_page, map_text_marks, line?_marks]
  cases style with
  | block =>
    refine ⟨_, foldlM_enclose hlines _, ?_, ?_, fun v hv => ?_⟩
    · rw [Plan.page, foldlM_enclose hlines]
      rfl
    · rw [lines_around]
    · exact getLast?_commandsFor_around hv (hfirst v hv) (hline v hv.1 hv.2).2
  | nextLine =>
    have hpage : (Plan.ofViolations violations).page .nextLine lines =
        .ok (announced (Plan.ofViolations violations).byStart lines) := by
      rw [Plan.page, ← announced_nil]
      exact foldlM_announce_announced hlines _ []
    refine ⟨_, hpage, ?_, ?_, fun number hpos hle => ?_⟩
    · rw [hpage]
      rfl
    · rw [announced, lines_build fun _ _ => rfl]
    · obtain ⟨i, rfl⟩ : ∃ i, number = i + 1 := ⟨number - 1, by omega⟩
      exact announces_announced hfirst hle

/-- Two errors on one line, one of them with a range that another range of its rule crosses. -/
theorem silences_where_reported_sample :
    let violations : List Violation :=
      [⟨.error, 2, 3, Text.unitsOf "a", []⟩, ⟨.error, 1, 2, Text.unitsOf "a", []⟩,
        ⟨.error, 2, 9, Text.unitsOf "b", []⟩]
    let lines := ["x", "y", "z"].map Text.unitsOf
    ∃ page, (Plan.ofViolations violations).page .block lines = .ok page ∧
      (Plan.ofViolations violations).apply .block lines = .ok (page.marks.map Mark.text) ∧
      page.marks.filterMap Mark.line? = lines.zipIdx 1 ∧
      Silences .block violations lines.length page.marks :=
  silences_where_reported .block (by decide) (by decide)

end LintDebt.Suppression
