import LintDebt.Proofs.Distinct
import LintDebt.Suppression.Plan

/-! # What a plan groups

A plan has one group for each range that an error is on, and the group has the rules of the errors
on that range. In which order the groups come is not said here. -/

namespace LintDebt

namespace Suppression

variable {violations : List Violation} {g g' : Group} {r : Text.Units}

/-- Holds of the violations that a plan groups. -/
def Suppressed (violations : List Violation) (v : Violation) : Prop :=
  v ∈ violations ∧ v.severity = .error

theorem range_of_le {v : Violation} (hfirst : 1 ≤ v.line) (hle : v.line ≤ v.endLine) :
    range v = (v.line, v.endLine) := by
  rw [range, if_neg (by omega)]

theorem mem_plan : g ∈ Plan.ofViolations violations ↔
    ∃ v, Suppressed violations v ∧ g = groupOf (violations.filter (·.severity = .error)) (range v) := by
  rw [Plan.ofViolations, (List.mergeSort_perm _ _).mem_iff, List.mem_map]
  constructor
  · rintro ⟨rg, hrg, rfl⟩
    rw [List.mem_eraseDups, List.mem_map] at hrg
    obtain ⟨v, hv, rfl⟩ := hrg
    exact ⟨v, by simpa [Suppressed] using hv, rfl⟩
  · rintro ⟨v, hv, rfl⟩
    refine ⟨range v, ?_, rfl⟩
    rw [List.mem_eraseDups, List.mem_map]
    exact ⟨v, by simpa [Suppressed] using hv, rfl⟩

/-- A group names the rules of the errors on its range. -/
theorem mem_rules (hg : g ∈ Plan.ofViolations violations) : r ∈ g.rules ↔
    ∃ v, Suppressed violations v ∧ range v = (g.start, g.stop) ∧ v.rule = r := by
  obtain ⟨v₀, -, rfl⟩ := mem_plan.mp hg
  simp only [groupOf, List.mem_eraseDups, List.mem_map, List.mem_filter, Suppressed,
    decide_eq_true_eq, and_assoc]

theorem eq_of_range (hg : g ∈ Plan.ofViolations violations) (hg' : g' ∈ Plan.ofViolations violations)
    (hstart : g.start = g'.start) (hstop : g.stop = g'.stop) : g = g' := by
  obtain ⟨v, -, rfl⟩ := mem_plan.mp hg
  obtain ⟨v', -, rfl⟩ := mem_plan.mp hg'
  have hrange : range v = range v' := Prod.ext hstart hstop
  rw [hrange]

theorem decide_start_trans (a b c : Group) (hab : decide (a.start ≤ b.start) = true)
    (hbc : decide (b.start ≤ c.start) = true) : decide (a.start ≤ c.start) = true := by
  rw [decide_eq_true_eq] at hab hbc ⊢
  omega

theorem decide_start_total (a b : Group) :
    (decide (a.start ≤ b.start) || decide (b.start ≤ a.start)) = true := by
  rw [Bool.or_eq_true, decide_eq_true_eq, decide_eq_true_eq]
  omega

theorem sorted_ofViolations (violations : List Violation) :
    (Plan.ofViolations violations).Pairwise fun g g' => g.start ≤ g'.start :=
  (List.pairwise_mergeSort decide_start_trans decide_start_total _).imp of_decide_eq_true

theorem nodup_plan : (Plan.ofViolations violations).Nodup := by
  rw [Plan.ofViolations, (List.mergeSort_perm _ _).nodup_iff]
  refine List.pairwise_map.mpr ((nodup_eraseDups _).imp fun hne heq => hne ?_)
  simp only [groupOf, Group.mk.injEq] at heq
  exact Prod.ext heq.1 heq.2.1

theorem exists_group {v : Violation} (hv : Suppressed violations v) :
    ∃ g ∈ Plan.ofViolations violations, (g.start, g.stop) = range v ∧ v.rule ∈ g.rules := by
  have hg := mem_plan.mpr ⟨v, hv, rfl⟩
  exact ⟨_, hg, rfl, (mem_rules hg).mpr ⟨v, hv, rfl, rfl⟩⟩

end Suppression
end LintDebt
