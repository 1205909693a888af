import LintDebt.Proofs.Suppression.Layout
import LintDebt.Proofs.Violation

/-! # The comment that comes first

If no range of a plan begins or ends before its first group does, then the comment that opens this
group is the first one, and above it stand the lines before the group. -/

namespace LintDebt.Suppression

open Page Text

variable {plan rest : Plan} {g : Group} {lines : List Units}

/-- Holds for a group before whose first line no group of a plan begins or ends. -/
def Leads (g : Group) (plan : Plan) : Prop := ∀ g' ∈ plan, g.start ≤ g'.start ∧ g.start ≤ g'.stop

/-- The comment for a group that leads a plan. -/
def Group.leading (g : Group) (plan : Plan) : Style → Comment
  | .block => g.opening
  | .nextLine => announcement (g.start, plan.rulesAt g.start)

/-- Slots without comments up to the one that begins with this comment, or all of them and then the
comment. -/
theorem exists_behind (slotOf : Units → Nat → Slot) {tail : List Units} {c : Units} {k : Nat}
    (lines : List Units) (m : Nat) (hbefore : ∀ line i, m < i → i ≤ m + k → (slotOf line i).lines = [line])
    (hat : ∀ line, ∃ behind, (slotOf line (m + k + 1)).lines = c :: behind)
    (htail : lines.length ≤ k → ∃ behind, tail = c :: behind) :
    ∃ behind, ((lines.zipIdx (m + 1)).flatMap fun p => (slotOf p.1 p.2).lines) ++ tail =
      lines.take k ++ c :: behind := by
  induction k generalizing lines m with
  | zero =>
    cases lines with
    | nil =>
      obtain ⟨behind, rfl⟩ := htail (Nat.zero_le 0)
      exact ⟨behind, rfl⟩
    | cons line lines =>
      obtain ⟨behind, hslot⟩ := hat line
      rw [List.zipIdx_cons, List.flatMap_cons, hslot]
      exact ⟨_, rfl⟩
  | succ k ih =>
    cases lines with
    | nil =>
      obtain ⟨behind, rfl⟩ := htail (Nat.zero_le _)
      exact ⟨behind, rfl⟩
    | cons line lines =>
      have hnext : m + 1 + k + 1 = m + (k + 1) + 1 := by omega
      obtain ⟨behind, hbehind⟩ := ih lines (m + 1)
        (fun line i hlt hle => hbefore line i (by omega) (by omega))
        (fun line => hnext ▸ hat line) (fun hle => htail (Nat.succ_le_succ hle))
      refine ⟨behind, ?_⟩
      rw [List.zipIdx_cons, List.flatMap_cons, hbefore line (m + 1) (by omega) (by omega),
        List.append_assoc, hbehind]
      rfl

theorem exists_blockLayout (hlines : lines ≠ []) (hleads : Leads g (g :: rest)) :
    ∃ behind, Plan.blockLayout (g :: rest) lines =
      lines.take (g.start - 1).toNat ++ commentLine "disable" g.rules :: behind := by
  have hlength := List.length_pos_iff.mpr hlines
  rw [← lines_around_eq_layout, around, lines_build_slots]
  refine exists_behind (slotAt (g :: rest)) lines 0 (fun line i hlt hle => ?_) (fun line => ?_)
    fun hle => ?_
  · have habove : (g :: rest).filter (lineOf ·.start = i) = [] := by
      refine List.filter_eq_nil_iff.mpr fun g' hg' => ?_
      have hstart := (hleads g' hg').1
      rw [decide_eq_true_eq, lineOf]
      omega
    have hbelow : (g :: rest).filter (lineOf ·.stop = i) = [] := by
      refine List.filter_eq_nil_iff.mpr fun g' hg' => ?_
      have hstop := (hleads g' hg').2
      rw [decide_eq_true_eq, lineOf]
      omega
    rw [slotAt, habove, hbelow]
    rfl
  · have hfirst : lineOf g.start = 0 + (g.start - 1).toNat + 1 := by
      rw [lineOf]
      omega
    rw [slotAt, List.filter_cons_of_pos (by rw [decide_eq_true_eq, hfirst])]
    exact ⟨_, rfl⟩
  · rw [List.flatMap_cons, pastEnd, if_pos (by omega)]
    exact ⟨_, rfl⟩

theorem exists_nextLineLayout (hlines : lines ≠ []) (hleads : Leads g (g :: rest)) :
    ∃ behind, Plan.nextLineLayout (g :: rest) lines = lines.take (g.start - 1).toNat ++
      commentLine "disable-next-line" (Plan.rulesAt (g :: rest) g.start) :: behind := by
  have hlength := List.length_pos_iff.mpr hlines
  obtain ⟨others, hothers⟩ : ∃ others, Plan.byStart (g :: rest) =
      (g.start, Plan.rulesAt (g :: rest) g.start) :: others := by
    rw [Plan.byStart, List.map_cons, List.eraseDups_cons]
    exact ⟨_, rfl⟩
  have hleast : ∀ entry ∈ Plan.byStart (g :: rest), g.start ≤ entry.1 := by
    intro entry hentry
    rw [Plan.byStart, List.mem_map] at hentry
    obtain ⟨start, hstart, rfl⟩ := hentry
    rw [List.mem_eraseDups, List.mem_map] at hstart
    obtain ⟨g', hg', rfl⟩ := hstart
    exact (hleads g' hg').1
  rw [← lines_announced_eq_layout, announced, lines_build_slots]
  refine exists_behind (announcedAt (Plan.byStart (g :: rest))) lines 0 (fun line i hlt hle => ?_)
    (fun line => ?_) fun hle => ?_
  · have habove : (Plan.byStart (g :: rest)).filter (lineOf ·.1 = i) = [] := by
      refine List.filter_eq_nil_iff.mpr fun entry hentry => ?_
      have hstart := hleast entry hentry
      rw [decide_eq_true_eq, lineOf]
      omega
    rw [announcedAt, habove]
    rfl
  · have hfirst : lineOf g.start = 0 + (g.start - 1).toNat + 1 := by
      rw [lineOf]
      omega
    rw [announcedAt, hothers, List.filter_cons_of_pos (by rw [decide_eq_true_eq, hfirst])]
    exact ⟨_, rfl⟩
  · rw [hothers, List.filter_cons_of_pos (by rw [decide_eq_true_eq]; omega)]
    exact ⟨_, rfl⟩

/-- The lines of a text with the comments of a plan that has a leading group. -/
theorem exists_apply_leading (hlines : lines ≠ []) (hleads : Leads g (g :: rest)) (style : Style) :
    ∃ behind, Plan.apply (g :: rest) style lines = .ok (lines.take (g.start - 1).toNat ++
      (g.leading (g :: rest) style).text :: behind) := by
  cases style with
  | block =>
    obtain ⟨behind, hbehind⟩ := exists_blockLayout hlines hleads
    exact ⟨behind, (apply_block hlines).trans (congrArg Except.ok hbehind)⟩
  | nextLine =>
    obtain ⟨behind, hbehind⟩ := exists_nextLineLayout hlines hleads
    exact ⟨behind, (apply_nextLine hlines).trans (congrArg Except.ok hbehind)⟩

theorem le_range {v : Violation} (hv : v.Made) : (range v).1 ≤ (range v).2 := by
  have hle := Violation.made_iff.mp hv
  rw [range]
  dsimp only
  split <;> omega

/-- The first group of a plan leads it. -/
theorem leads_ofViolations {violations : List Violation} (hmade : ∀ v ∈ violations, v.Made)
    (hplan : Plan.ofViolations violations = g :: rest) : Leads g (g :: rest) := by
  have hsorted := sorted_ofViolations violations
  rw [hplan, List.pairwise_cons] at hsorted
  intro g' hg'
  have hstart : g.start ≤ g'.start := by
    rcases List.mem_cons.mp hg' with rfl | hrest
    · exact Int.le_refl _
    · exact hsorted.1 g' hrest
  rw [← hplan] at hg'
  obtain ⟨v, hv, rfl⟩ := mem_plan.mp hg'
  exact ⟨hstart, Int.le_trans hstart (le_range (hmade v hv.1))⟩

end LintDebt.Suppression
