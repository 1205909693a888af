import LintDebt.Proofs.Suppression.Gathering
import LintDebt.Proofs.Violation
import Mathlib.Data.List.Nodup

/-! # The grouping that a plan is

A plan groups the errors of a report by their ranges. It is sorted by the first lines of the groups,
and what is equal in this stays in the order of the report; so do the rules in each group. Only one
plan has all these properties (`Grouping.unique`), and it comes out of one pass over the report too,
in which each error is put under its range at once (`collected_eq_ofViolations`). -/

namespace LintDebt

section lists

variable {α β : Type}

/-- What does not come is not found. -/
theorem findIdx_of_not_mem [BEq β] [LawfulBEq β] {p : α → Bool} {f : α → β} {l : List α} {b : β}
    (h : b ∉ (l.filter p).map f) : l.findIdx (fun a => p a && f a == b) = l.length := by
  refine List.findIdx_eq_length_of_false fun a ha => ?_
  rw [Bool.and_eq_false_iff, beq_eq_false_iff_ne]
  by_contra hsame
  rw [not_or, Bool.not_eq_false, not_not] at hsame
  exact h (List.mem_map.mpr ⟨a, List.mem_filter.mpr ⟨ha, hsame.1⟩, hsame.2⟩)

/-- What is left without repetitions stands in the order in which it first came. -/
theorem pairwise_eraseDups [BEq β] [LawfulBEq β] (p : α → Bool) (f : α → β) (l : List α) :
    ((l.filter p).map f).eraseDups.Pairwise fun b b' =>
      l.findIdx (fun a => p a && f a == b) < l.findIdx (fun a => p a && f a == b') := by
  induction l using List.reverseRecOn with
  | nil => simp
  | append_singleton l a ih =>
    have hfound : ∀ b ∈ ((l.filter p).map f).eraseDups,
        l.findIdx (fun a => p a && f a == b) < l.length := by
      intro b hb
      rw [List.mem_eraseDups, List.mem_map] at hb
      obtain ⟨a', ha', rfl⟩ := hb
      rw [List.mem_filter] at ha'
      exact List.findIdx_lt_length_of_exists ⟨a', ha'.1, by simp [ha'.2]⟩
    have hstays : ∀ b ∈ ((l.filter p).map f).eraseDups,
        (l ++ [a]).findIdx (fun a => p a && f a == b) = l.findIdx (fun a => p a && f a == b) := by
      intro b hb
      rw [List.findIdx_append, if_pos (hfound b hb)]
    have hbefore := ih.imp_of_mem (S := fun b b' => (l ++ [a]).findIdx (fun a => p a && f a == b) <
        (l ++ [a]).findIdx (fun a => p a && f a == b')) fun {b b'} hb hb' hlt => by
      rwa [hstays b hb, hstays b' hb']
    rw [List.filter_append, List.map_append, List.eraseDups_append]
    by_cases hnew : p a = true ∧ f a ∉ (l.filter p).map f
    · have hone : (([a].filter p).map f).removeAll ((l.filter p).map f) = [f a] := by
        simpa [List.removeAll, hnew.1] using hnew.2
      have hlast : l.length ≤ (l ++ [a]).findIdx fun a' => p a' && f a' == f a := by
        rw [List.findIdx_append, findIdx_of_not_mem hnew.2, if_neg (Nat.lt_irrefl _)]
        omega
      rw [hone, List.eraseDups_cons, List.filter_nil, List.eraseDups_nil, List.pairwise_append]
      refine ⟨hbefore, List.pairwise_singleton _ _, fun b hb b' hb' => ?_⟩
      rw [List.mem_singleton.mp hb', hstays b hb]
      exact Nat.lt_of_lt_of_le (hfound b hb) hlast
    · have hnone : (([a].filter p).map f).removeAll ((l.filter p).map f) = [] := by
        by_cases hp : p a = true
        · have hold := not_not.mp (not_and.mp hnew hp)
          simpa [List.removeAll, hp, and_assoc] using hold
        · simp [List.removeAll, hp]
      rwa [hnone, List.eraseDups_nil, List.append_nil]

/-- What is sorted stays in the order it had, where the sorting does not ask for another one. -/
theorem pairwise_mergeSort_of_pairwise {R : α → α → Prop} {le : α → α → Bool}
    (htrans : ∀ a b c, le a b = true → le b c = true → le a c = true)
    (htotal : ∀ a b, (le a b || le b a) = true) {l : List α} (h : l.Pairwise R) :
    (l.mergeSort le).Pairwise fun a b => le a b = true ∧ (le b a = true → R a b) := by
  induction l with
  | nil => simp
  | cons a l ih =>
    obtain ⟨before, behind, hsort, hrest, hbefore⟩ := List.mergeSort_cons htrans htotal a l
    have hsorted := List.pairwise_mergeSort htrans htotal (a :: l)
    have hstable := ih (List.pairwise_cons.mp h).2
    rw [hsort, List.pairwise_append, List.pairwise_cons] at hsorted
    rw [hrest, List.pairwise_append] at hstable
    rw [hsort, List.pairwise_append, List.pairwise_cons]
    refine ⟨hstable.1, ⟨fun b hb => ⟨hsorted.2.1.1 b hb, fun _ => ?_⟩, hstable.2.1⟩,
      fun b hb c hc => ?_⟩
    · have hmem : b ∈ l.mergeSort le := hrest ▸ List.mem_append_right before hb
      exact (List.pairwise_cons.mp h).1 b (List.mem_mergeSort.mp hmem)
    · rcases List.mem_cons.mp hc with rfl | hc
      · refine ⟨hsorted.2.2 b hb c List.mem_cons_self, fun hle => ?_⟩
        have hnot := hbefore b hb
        rw [hle] at hnot
        cases hnot
      · exact hstable.2.2 b hb c hc

/-- Lists with the same elements in the same strict order are equal. -/
theorem eq_of_ordered {R : α → α → Prop} (hR : ∀ a b, R a b → ¬ R b a) {l l' : List α}
    (h : l.Pairwise R) (h' : l'.Pairwise R) (hmem : ∀ a, a ∈ l ↔ a ∈ l') : l = l' := by
  have hnodup : ∀ l : List α, l.Pairwise R → l.Nodup := by
    refine fun l h => h.imp ?_
    rintro a b hab rfl
    exact hR a a hab hab
  have hperm := (List.perm_ext_iff_of_nodup (hnodup l h) (hnodup l' h')).mpr hmem
  exact hperm.eq_of_pairwise (fun a b _ _ hab hba => absurd hba (hR a b hab)) h h'

end lists

namespace Suppression

/-- Where the first error with a property stands in a report. -/
def firstError (violations : List Violation) (p : Violation → Bool) : Nat :=
  violations.findIdx fun v => v.severity = .error && p v

/-- Holds for a violation on exactly the range of a group. -/
def Group.spans (g : Group) (v : Violation) : Bool := v.line = g.start && v.endLine = g.stop

/-- Holds for a plan that is the stable grouping of the errors of a report. No two groups are on one
range and no rule is twice in a group, because both orders are strict. -/
structure Grouping (violations : List Violation) (plan : Plan) : Prop where
  ranges : ∀ start stop, (∃ g ∈ plan, g.start = start ∧ g.stop = stop) ↔
    ∃ v, Suppressed violations v ∧ v.line = start ∧ v.endLine = stop
  forward : ∀ g ∈ plan, g.start ≤ g.stop
  ordered : plan.Pairwise fun g g' => g.start < g'.start ∨ g.start = g'.start ∧
    firstError violations g.spans < firstError violations g'.spans
  named : ∀ g ∈ plan, g.rules ≠ []
  rules : ∀ g ∈ plan, ∀ r, r ∈ g.rules ↔
    ∃ v, Suppressed violations v ∧ g.spans v = true ∧ v.rule = r
  rulesOrdered : ∀ g ∈ plan, g.rules.Pairwise fun r r' =>
    firstError violations (fun v => g.spans v && v.rule == r) <
      firstError violations fun v => g.spans v && v.rule == r'

/-- Puts a violation under its range, if it is an error. -/
def collect (table : List ((Int × Int) × List Text.Units)) (v : Violation) :
    List ((Int × Int) × List Text.Units) :=
  if v.severity = .error then gather table (range v, [v.rule]) else table

/-- The plan for a report that is gone through once. -/
def Plan.collected (violations : List Violation) : Plan :=
  ((violations.foldl collect []).map fun e => Group.mk e.1.1 e.1.2 e.2).mergeSort
    fun a b => a.start ≤ b.start

variable {violations : List Violation} {plan plan' : Plan} {g : Group}

theorem collected_eq_ofViolations (violations : List Violation) :
    Plan.collected violations = Plan.ofViolations violations := by
  have htable : violations.foldl collect [] =
      tableOf ((violations.filter (·.severity = .error)).map fun v => (range v, [v.rule])) := by
    rw [← foldl_gather, List.foldl_map, List.foldl_filter]
    simp only [decide_eq_true_eq]
    rfl
  -- `Plan.ofViolations` compares ranges component by component
  have hbeq : instBEqOfDecidableEq = (instBEqProd : BEq (Int × Int)) := lawful_beq_subsingleton _ _
  rw [Plan.collected, htable, Plan.ofViolations, tableOf, hbeq]
  simp only [rulesUnder, List.map_map, List.filter_map, List.flatMap_map, ← List.map_eq_flatMap]
  rfl

section grouping

theorem findIdx_eq_firstError {p q : Violation → Bool}
    (herror : ∀ v, Suppressed violations v → q v = p v)
    (hother : ∀ v ∈ violations, v.severity ≠ .error → q v = false) :
    violations.findIdx q = firstError violations p := by
  have hsame : ∀ v ∈ violations, q v = (decide (v.severity = .error) && p v) := by
    intro v hv
    by_cases hseverity : v.severity = .error
    · rw [herror v ⟨hv, hseverity⟩, decide_eq_true hseverity, Bool.true_and]
    · rw [hother v hv hseverity, decide_eq_false hseverity, Bool.false_and]
  refine Nat.le_antisymm (List.findIdx_le_findIdx fun v hv h => ?_)
    (List.findIdx_le_findIdx fun v hv h => ?_)
  · rwa [hsame v hv]
  · rwa [← hsame v hv]

variable (h : ∀ v, Suppressed violations v → 1 ≤ v.line ∧ v.line ≤ v.endLine)
include h

theorem range_of_suppressed {v : Violation} (hv : Suppressed violations v) :
    range v = (v.line, v.endLine) :=
  range_of_le (h v hv).1 (h v hv).2

theorem spans_eq_decide {v : Violation} (hv : Suppressed violations v) :
    g.spans v = decide (range v = (g.start, g.stop)) := by
  rw [range_of_suppressed h hv, Group.spans]
  simp only [Prod.mk.injEq, Bool.decide_and]

theorem ordered_ofViolations : (Plan.ofViolations violations).Pairwise fun g g' =>
    g.start < g'.start ∨ g.start = g'.start ∧
      firstError violations g.spans < firstError violations g'.spans := by
  have hfirst : ∀ r : Int × Int, violations.findIdx (fun v => v.severity = .error && range v == r) =
      firstError violations (groupOf (violations.filter (·.severity = .error)) r).spans := by
    intro r
    refine findIdx_eq_firstError (fun v hv => ?_) fun v _ hseverity => ?_
    · rw [spans_eq_decide h hv, decide_eq_true hv.2, Bool.true_and, beq_eq_decide]
      rfl
    · rw [decide_eq_false hseverity, Bool.false_and]
  have hgroups := pairwise_eraseDups (fun v => decide (v.severity = .error)) range violations
  simp only [hfirst] at hgroups
  refine (pairwise_mergeSort_of_pairwise (R := fun g g' =>
    firstError violations g.spans < firstError violations g'.spans) decide_start_trans
    decide_start_total (List.pairwise_map.mpr hgroups)).imp ?_
  rintro a b ⟨hle, hties⟩
  rw [decide_eq_true_eq] at hle hties
  by_cases hlt : a.start < b.start
  · exact Or.inl hlt
  · exact Or.inr ⟨by omega, hties (by omega)⟩

theorem rulesOrdered_ofViolations (hg : g ∈ Plan.ofViolations violations) :
    g.rules.Pairwise fun r r' => firstError violations (fun v => g.spans v && v.rule == r) <
      firstError violations fun v => g.spans v && v.rule == r' := by
  obtain ⟨v₀, -, rfl⟩ := mem_plan.mp hg
  generalize hgroup : groupOf (violations.filter (·.severity = .error)) (range v₀) = g
  have hrange : (g.start, g.stop) = range v₀ := by
    rw [← hgroup]
    rfl
  have hfirst : ∀ r, violations.findIdx
      (fun v => (decide (range v = range v₀) && decide (v.severity = .error)) && v.rule == r) =
        firstError violations fun v => g.spans v && v.rule == r := by
    refine fun r => findIdx_eq_firstError (fun v hv => ?_) fun v _ hseverity => ?_
    · rw [spans_eq_decide h hv, hrange, decide_eq_true hv.2, Bool.and_true]
    · rw [decide_eq_false hseverity, Bool.and_false, Bool.false_and]
  have hrules := pairwise_eraseDups
    (fun v => decide (range v = range v₀) && decide (v.severity = .error)) Violation.rule violations
  simp only [hfirst] at hrules
  have hlist : g.rules = ((violations.filter fun v =>
      decide (range v = range v₀) && decide (v.severity = .error)).map Violation.rule).eraseDups := by
    rw [← hgroup, groupOf, List.filter_filter]
  rwa [hlist]

theorem grouping_ofViolations : Grouping violations (Plan.ofViolations violations) where
  ranges start stop := by
    constructor
    · rintro ⟨g, hg, rfl, rfl⟩
      obtain ⟨v, hv, rfl⟩ := mem_plan.mp hg
      have hrange := range_of_suppressed h hv
      exact ⟨v, hv, (congrArg Prod.fst hrange).symm, (congrArg Prod.snd hrange).symm⟩
    · rintro ⟨v, hv, rfl, rfl⟩
      obtain ⟨g, hg, hrange, -⟩ := exists_group hv
      rw [range_of_suppressed h hv, Prod.mk.injEq] at hrange
      exact ⟨g, hg, hrange⟩
  forward g hg := by
    obtain ⟨v, hv, rfl⟩ := mem_plan.mp hg
    have hrange := range_of_suppressed h hv
    rw [groupOf, hrange]
    exact (h v hv).2
  ordered := ordered_ofViolations h
  named g hg := by
    obtain ⟨v, hv, rfl⟩ := mem_plan.mp hg
    exact List.ne_nil_of_mem ((mem_rules hg).mpr ⟨v, hv, rfl, rfl⟩)
  rules g hg r := by
    rw [mem_rules hg]
    refine exists_congr fun v => and_congr_right fun hv => ?_
    rw [spans_eq_decide h hv, decide_eq_true_eq]
  rulesOrdered g hg := rulesOrdered_ofViolations h hg

end grouping

theorem Grouping.subset (hplan : Grouping violations plan) (hplan' : Grouping violations plan') :
    plan ⊆ plan' := by
  intro g hg
  obtain ⟨g', hg', hstart, hstop⟩ := (hplan'.ranges g.start g.stop).mpr
    ((hplan.ranges g.start g.stop).mp ⟨g, hg, rfl, rfl⟩)
  have hspans : g'.spans = g.spans := by
    funext v
    rw [Group.spans, hstart, hstop, Group.spans]
  have hordered := hplan'.rulesOrdered g' hg'
  have hrules := hplan'.rules g' hg'
  rw [hspans] at hordered hrules
  have hsame : g.rules = g'.rules := by
    refine eq_of_ordered (fun r r' hlt hlt' => ?_) (hplan.rulesOrdered g hg) hordered fun r => ?_
    · exact Nat.lt_asymm hlt hlt'
    · rw [hplan.rules g hg, hrules]
  obtain ⟨start, stop, rules⟩ := g
  obtain ⟨start', stop', rules'⟩ := g'
  cases hstart
  cases hstop
  cases hsame
  exact hg'

/-- There is only one stable grouping of a report. -/
theorem Grouping.unique (hplan : Grouping violations plan) (hplan' : Grouping violations plan') :
    plan = plan' := by
  refine eq_of_ordered (fun g g' hlt hlt' => ?_) hplan.ordered hplan'.ordered fun g =>
    ⟨fun hg => hplan.subset hplan' hg, fun hg => hplan'.subset hplan hg⟩
  omega

/-- A plan is the stable grouping of the errors of a report and nothing else is, also if the report is
gone through only once; and what is no error does not matter, wherever it stands. -/
theorem stably_grouped (hmade : ∀ v ∈ violations, v.Made)
    (hfirst : ∀ v ∈ violations, v.severity = .error → 1 ≤ v.line) :
    (∀ plan, Grouping violations plan ↔ plan = Plan.ofViolations violations) ∧
      Plan.collected violations = Plan.ofViolations violations ∧
      ∀ violations', violations'.filter (·.severity = .error) =
        violations.filter (·.severity = .error) →
          Plan.ofViolations violations' = Plan.ofViolations violations := by
  have hranges : ∀ v, Suppressed violations v → 1 ≤ v.line ∧ v.line ≤ v.endLine :=
    fun v hv => ⟨hfirst v hv.1 hv.2, Violation.made_iff.mp (hmade v hv.1)⟩
  have hgrouping := grouping_ofViolations hranges
  refine ⟨fun plan => ⟨fun h => h.unique hgrouping, ?_⟩, collected_eq_ofViolations violations, ?_⟩
  · rintro rfl
    exact hgrouping
  · intro violations' hsame
    rw [Plan.ofViolations, hsame, Plan.ofViolations]

/-- A tie, a rule that comes back, and a warning on a line of its own. -/
theorem stably_grouped_sample :
    let violations : List Violation :=
      [⟨.error, 3, 3, Text.unitsOf "b", []⟩, ⟨.warning, 2, 2, Text.unitsOf "a", []⟩,
        ⟨.error, 1, 4, Text.unitsOf "b", []⟩, ⟨.error, 1, 2, Text.unitsOf "c", []⟩,
        ⟨.error, 1, 4, Text.unitsOf "a", []⟩, ⟨.error, 1, 4, Text.unitsOf "b", []⟩]
    Grouping violations [⟨1, 4, ["b", "a"].map Text.unitsOf⟩, ⟨1, 2, [Text.unitsOf "c"]⟩,
      ⟨3, 3, [Text.unitsOf "b"]⟩] := by
  intro violations
  have hmade : ∀ v ∈ violations, v.Made := by
    intro v hv
    rw [Violation.made_iff]
    revert v
    decide
  have hgroups : ((violations.filter (·.severity = .error)).map range).eraseDups.map
      (groupOf (violations.filter (·.severity = .error))) = [⟨3, 3, [Text.unitsOf "b"]⟩,
        ⟨1, 4, ["b", "a"].map Text.unitsOf⟩, ⟨1, 2, [Text.unitsOf "c"]⟩] := by decide +kernel
  refine ((stably_grouped hmade (by decide)).1 _).mpr ?_
  rw [Plan.ofViolations, hgroups]
  simp [List.mergeSort, List.MergeSort.Internal.splitInTwo]

end Suppression
end LintDebt
