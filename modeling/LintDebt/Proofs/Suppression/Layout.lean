import LintDebt.Proofs.Suppression.Buffer
import LintDebt.Proofs.Suppression.Silencing

/-! # The layout of comments

In which order the comments of a plan and the lines of a text come, told line by line. Comments for
a line before the first go to the first line, comments for a line past the end go behind the last
one in the order of the plan, and neither the order of the plan nor the way its ranges lie matters
for where a comment goes. -/

namespace LintDebt.Suppression

open Page

/-- The lines of a text with the block comments of a plan. -/
def Plan.blockLayout (plan : Plan) (lines : List Text.Units) : List Text.Units :=
  ((lines.zipIdx 1).flatMap fun (line, k) =>
    (plan.filter (max ·.start 1 = (k : Int))).map (commentLine "disable" ·.rules) ++
      line :: (plan.reverse.filter (max ·.stop 1 = (k : Int))).map (commentLine "enable" ·.rules)) ++
  plan.flatMap fun g : Group =>
    (if lines.length < g.start then [commentLine "disable" g.rules] else []) ++
      (if lines.length < g.stop then [commentLine "enable" g.rules] else [])

/-- The lines on which groups start, each once, in the order in which they first come. -/
def Plan.starts (plan : Plan) : List Int := (plan.map Group.start).eraseDups

/-- The lines of a text with the next-line comments of a plan. -/
def Plan.nextLineLayout (plan : Plan) (lines : List Text.Units) : List Text.Units :=
  let comment start := commentLine "disable-next-line" (plan.rulesAt start)
  ((lines.zipIdx 1).flatMap fun (line, k) =>
    (plan.starts.filter (max · 1 = (k : Int))).map comment ++ [line]) ++
  (plan.starts.filter ((lines.length : Int) < ·)).map comment

variable {plan : Plan} {lines : List Text.Units}

theorem lineOf_eq_iff (number : Int) (k : Nat) : lineOf number = k ↔ max number 1 = (k : Int) := by
  rw [lineOf]
  omega

theorem lines_build_slots {slotOf : Text.Units → Nat → Slot} {tail : List Comment} :
    (build slotOf lines tail).lines =
      ((lines.zipIdx 1).flatMap fun p => (slotOf p.1 p.2).lines) ++ tail.map Comment.text := by
  rw [build, Page.lines, List.flatMap_map]

theorem lines_slotAt (plan : Plan) (line : Text.Units) (k : Nat) : (slotAt plan line k).lines =
    (plan.filter (max ·.start 1 = (k : Int))).map (commentLine "disable" ·.rules) ++
      line :: (plan.reverse.filter (max ·.stop 1 = (k : Int))).map
        (commentLine "enable" ·.rules) := by
  simp only [slotAt, Slot.lines, lineOf_eq_iff, List.map_map, ← List.map_reverse,
    ← List.filter_reverse]
  rfl

theorem map_text_pastEnd (length : Nat) (g : Group) : (pastEnd length g).map Comment.text =
    (if length < g.start then [commentLine "disable" g.rules] else []) ++
      (if length < g.stop then [commentLine "enable" g.rules] else []) := by
  rw [pastEnd, List.map_append]
  congr 1
  · split <;> rfl
  · split <;> rfl

theorem lines_around_eq_layout (plan : Plan) (lines : List Text.Units) :
    (around plan lines).lines = plan.blockLayout lines := by
  rw [around, lines_build_slots, List.map_flatMap, Plan.blockLayout]
  simp only [lines_slotAt, map_text_pastEnd]

theorem lines_announced_eq_layout (plan : Plan) (lines : List Text.Units) :
    (announced plan.byStart lines).lines = plan.nextLineLayout lines := by
  rw [announced, lines_build_slots, Plan.nextLineLayout]
  simp only [announcedAt, Slot.lines, lineOf_eq_iff, Plan.byStart, List.filter_map, List.map_map]
  rfl

theorem apply_block (hlines : lines ≠ []) :
    plan.apply .block lines = .ok (plan.blockLayout lines) := by
  rw [apply_eq_page, Plan.page, foldlM_enclose hlines, ← lines_around_eq_layout]
  rfl

theorem apply_nextLine (hlines : lines ≠ []) :
    plan.apply .nextLine lines = .ok (plan.nextLineLayout lines) := by
  rw [apply_eq_page, Plan.page, ← announced_nil, foldlM_announce_announced hlines,
    List.nil_append, ← lines_announced_eq_layout]
  rfl

/-- Whatever the ranges of a plan, its block comments can be placed on a text with lines, and they
come out in the order of the layout, also when they are put into the lines one by one. -/
theorem block_layout (plan : Plan) (hlines : lines ≠ []) :
    plan.apply .block lines = .ok (plan.blockLayout lines) ∧
      plan.insertInto .block lines = .ok (plan.blockLayout lines) :=
  ⟨apply_block hlines, (insertInto_eq_apply plan .block lines).trans (apply_block hlines)⟩

/-- Two ranges that cross, the earlier one from before the first line, and one that ends before it
starts. -/
theorem block_layout_sample :
    let plan : Plan := [⟨2, 9, [Text.unitsOf "a"]⟩, ⟨0, 2, [Text.unitsOf "b"]⟩,
      ⟨2, 1, [Text.unitsOf "c"]⟩]
    let lines := ["x", "y"].map Text.unitsOf
    (plan.apply .block lines = .ok (plan.blockLayout lines) ∧
      plan.insertInto .block lines = .ok (plan.blockLayout lines)) ∧
      plan.blockLayout lines = ["/* stylelint-disable b */", "x", "/* stylelint-enable c */",
        "/* stylelint-disable a */", "/* stylelint-disable c */", "y", "/* stylelint-enable b */",
        "/* stylelint-enable a */"].map Text.unitsOf :=
  ⟨block_layout _ (by decide), by decide +kernel⟩

/-- The next-line comments of any plan can be placed on a text with lines too: one for each line on
which groups start, with the rules of all of them. -/
theorem nextLine_layout (plan : Plan) (hlines : lines ≠ []) :
    plan.apply .nextLine lines = .ok (plan.nextLineLayout lines) ∧
      plan.insertInto .nextLine lines = .ok (plan.nextLineLayout lines) :=
  ⟨apply_nextLine hlines, (insertInto_eq_apply plan .nextLine lines).trans (apply_nextLine hlines)⟩

/-- Groups out of order, two of them on one line, and two lines that both mean the first. -/
theorem nextLine_layout_sample :
    let plan : Plan := [⟨7, 7, [Text.unitsOf "a"]⟩, ⟨1, 1, [Text.unitsOf "b", Text.unitsOf "a"]⟩,
      ⟨-3, 2, [Text.unitsOf "c"]⟩, ⟨1, 2, [Text.unitsOf "a", Text.unitsOf "d"]⟩]
    let lines := ["x", "y"].map Text.unitsOf
    (plan.apply .nextLine lines = .ok (plan.nextLineLayout lines) ∧
      plan.insertInto .nextLine lines = .ok (plan.nextLineLayout lines)) ∧
      plan.nextLineLayout lines = ["/* stylelint-disable-next-line b,a,d */",
        "/* stylelint-disable-next-line c */", "x", "y",
        "/* stylelint-disable-next-line a */"].map Text.unitsOf :=
  ⟨nextLine_layout _ (by decide), by decide +kernel⟩

end LintDebt.Suppression
