import LintDebt.Proofs.Suppression.Placement
import LintDebt.Proofs.Suppression.Plan

/-! # Comments as brackets

The block comments that name a rule are brackets around the ranges of its errors. A linter does not
count brackets: a rule is off after a `disable` and on again after the first `enable`. So the comments
say what they mean exactly if no bracket of the rule opens inside another one, that is if no two
ranges of the rule have a line in common (`brackets_iff_apart`). -/

namespace LintDebt.Suppression

open Page

/-- Holds of commands that turn off and on again in turns, when the rule is off before them or not. -/
def alternate : Bool → List Command → Bool
  | off, [] => !off
  | false, .disable :: rest => alternate true rest
  | true, .enable :: rest => alternate false rest
  | _, _ => false

/-- Holds if a rule is off after these commands. -/
def isOff (commands : List Command) : Bool := commands.getLast? = some .disable

/-- Holds if the comments that name a rule are brackets around the ranges of its errors: none opens
or closes out of turn, and the rule is off on the lines of the ranges and on no other line. -/
structure Brackets (violations : List Violation) (r : Text.Units) (length : Nat)
    (marks : List Mark) : Prop where
  alternate : alternate false (commandsFor r marks) = true
  isOff_iff : ∀ i, 1 ≤ i → i ≤ length → (isOff (commandsFor r (marksAbove i marks)) = true ↔
    ∃ v, Suppressed violations v ∧ v.rule = r ∧ v.line ≤ i ∧ i ≤ v.endLine)

/-- Holds if two errors on the same rule are on the same range or have no line in common. -/
def Apart (violations : List Violation) (r : Text.Units) : Prop :=
  ∀ v v', Suppressed violations v → Suppressed violations v' → v.rule = r → v'.rule = r →
    v.line = v'.line ∧ v.endLine = v'.endLine ∨ v.endLine < v'.line ∨ v'.endLine < v.line

theorem alternate_replicate (off : Bool) (opens closes : Nat) (rest : List Command)
    (h : closes ≤ off.toNat + opens) :
    alternate off (List.replicate opens .disable ++ List.replicate closes .enable ++ rest) = true ↔
      off.toNat + opens ≤ 1 ∧ alternate (off.toNat + opens - closes = 1) rest = true := by
  match off, opens, closes with
  | false, 0, 0 => simp
  | false, 1, 0 => simp [alternate]
  | false, 1, 1 => simp [alternate]
  | false, opens + 2, closes => simp [alternate, List.replicate_succ]
  | true, 0, 0 => simp
  | true, 0, 1 => simp [alternate]
  | true, opens + 1, closes =>
    have hmany : ¬ true.toNat + (opens + 1) ≤ 1 := by
      rw [Bool.toNat_true]
      omega
    rw [List.replicate_succ]
    simp only [hmany, false_and, List.cons_append, alternate, Bool.false_eq_true]

section depth

variable {opens closes depth : Nat → Nat}

/-- Commands alternate if at each line at most one bracket is open. `depth i` is how many are open
when line `i` is reached. -/
theorem alternate_iff (hdepth : ∀ i, depth (i + 1) + closes i = depth i + opens i) (k m : Nat)
    (hk : depth k ≤ 1) :
    alternate (depth k = 1) ((List.range' k m).flatMap fun i =>
        List.replicate (opens i) .disable ++ List.replicate (closes i) .enable) = true ↔
      (∀ i, k ≤ i → i < k + m → depth i + opens i ≤ 1) ∧ depth (k + m) = 0 := by
  induction m generalizing k with
  | zero =>
    have hnone : ∀ i, k ≤ i → i < k + 0 → depth i + opens i ≤ 1 := fun i _ _ => by omega
    simp only [List.range'_zero, List.flatMap_nil, alternate, Bool.not_eq_true', decide_eq_false_iff_not,
      Nat.add_zero]
    constructor
    · intro h
      exact ⟨hnone, by omega⟩
    · rintro ⟨-, h⟩
      omega
  | succ m ih =>
    have hstep := hdepth k
    have hoff : (decide (depth k = 1)).toNat = depth k := by
      match depth k, hk with
      | 0, _ => rfl
      | 1, _ => rfl
    rw [List.range'_succ, List.flatMap_cons, alternate_replicate _ _ _ _ (by rw [hoff]; omega), hoff,
      show depth k + opens k - closes k = depth (k + 1) by omega]
    constructor
    · rintro ⟨hone, halt⟩
      obtain ⟨hrest, hend⟩ := (ih (k + 1) (by omega)).mp halt
      refine ⟨fun i hi hlt => ?_, by rwa [Nat.add_right_comm] at hend⟩
      rcases Nat.eq_or_lt_of_le hi with rfl | hi
      · exact hone
      · exact hrest i hi (by omega)
    · rintro ⟨hall, hend⟩
      have hone := hall k (Nat.le_refl k) (by omega)
      refine ⟨hone, (ih (k + 1) (by omega)).mpr ⟨fun i hi hlt => hall i (by omega) (by omega), ?_⟩⟩
      rwa [Nat.add_right_comm]

/-- Where at most one bracket is open, the rule is off if one is. -/
theorem isOff_iff_depth (hdepth : ∀ i, depth (i + 1) + closes i = depth i + opens i)
    (hstart : depth 1 = 0) (i : Nat) (hone : ∀ j, 1 ≤ j → j ≤ i → depth j + opens j ≤ 1) :
    isOff ((List.range' 1 i).flatMap fun i =>
      List.replicate (opens i) .disable ++ List.replicate (closes i) .enable) = true ↔
        depth (i + 1) = 1 := by
  induction i with
  | zero => simp [isOff, hstart]
  | succ i ih =>
    have hstep := hdepth (i + 1)
    have hle := hone (i + 1) (by omega) (Nat.le_refl _)
    have hbefore := ih fun j hj hle => hone j hj (by omega)
    rw [List.range'_concat, List.flatMap_append, List.flatMap_singleton, Nat.one_mul, Nat.add_comm 1 i]
    simp only [isOff, decide_eq_true_eq] at hbefore ⊢
    match ho : opens (i + 1), hc : closes (i + 1) with
    | 0, 0 =>
      rw [List.replicate_zero, List.replicate_zero, List.append_nil, List.append_nil, hbefore]
      omega
    | o + 1, 0 =>
      rw [List.replicate_zero, List.append_nil, List.replicate_succ', ← List.append_assoc]
      simp
      omega
    | o, c + 1 =>
      rw [List.replicate_succ', ← List.append_assoc, ← List.append_assoc]
      simp
      omega

/-- The rule is off on a line if a bracket is open when the comments above it were read. -/
theorem isOff_append_opens (commands : List Command) (n : Nat) :
    isOff (commands ++ List.replicate n .disable) = true ↔ 0 < n ∨ isOff commands = true := by
  cases n with
  | zero => simp
  | succ n => simp [isOff, List.replicate_succ', ← List.append_assoc]

end depth

/-- How many groups are open before the comments above a line. -/
def openBefore (groups : List Group) (i : Nat) : Nat :=
  groups.countP fun g => g.start < (i : Int) ∧ (i : Int) ≤ g.stop

/-- How many groups have a line in their range. -/
def covering (groups : List Group) (i : Nat) : Nat :=
  groups.countP fun g => g.start ≤ (i : Int) ∧ (i : Int) ≤ g.stop

variable {groups : List Group} {r : Text.Units} {violations : List Violation}
  {lines : List Text.Units}

theorem openBefore_succ (h : ∀ g ∈ groups, 1 ≤ g.start ∧ g.start ≤ g.stop) (i : Nat) :
    openBefore groups (i + 1) + closesAt groups i = openBefore groups i + opensAt groups i := by
  induction groups with
  | nil => rfl
  | cons g rest ih =>
    obtain ⟨hstart, hstop⟩ := h g List.mem_cons_self
    have hrest := ih fun g hg => h g (List.mem_cons_of_mem _ hg)
    have hone : (if g.start < (i + 1 : Nat) ∧ (i + 1 : Nat) ≤ g.stop then 1 else 0) +
        (if lineOf g.stop = i then 1 else 0) =
        (if g.start < i ∧ i ≤ g.stop then 1 else 0) + (if lineOf g.start = i then 1 else 0) := by
      rw [lineOf, lineOf]
      split <;> split <;> split <;> split <;> omega
    simp only [openBefore, closesAt, opensAt, List.countP_cons, decide_eq_true_eq] at hrest ⊢
    omega

theorem covering_eq (h : ∀ g ∈ groups, 1 ≤ g.start ∧ g.start ≤ g.stop) (i : Nat) :
    openBefore groups i + opensAt groups i = covering groups i := by
  induction groups with
  | nil => rfl
  | cons g rest ih =>
    obtain ⟨hstart, hstop⟩ := h g List.mem_cons_self
    have hrest := ih fun g hg => h g (List.mem_cons_of_mem _ hg)
    have hone : (if g.start < i ∧ i ≤ g.stop then 1 else 0) + (if lineOf g.start = i then 1 else 0) =
        if g.start ≤ i ∧ i ≤ g.stop then 1 else 0 := by
      rw [lineOf]
      split <;> split <;> split <;> omega
    simp only [openBefore, covering, opensAt, List.countP_cons, decide_eq_true_eq] at hrest ⊢
    omega

theorem countP_le_one {α : Type} {l : List α} (hl : l.Nodup) (p : α → Bool) :
    l.countP p ≤ 1 ↔ ∀ a ∈ l, ∀ b ∈ l, p a = true → p b = true → a = b := by
  have hnodup : (l.filter p).Nodup := hl.sublist List.filter_sublist
  have hmem : ∀ a, a ∈ l.filter p ↔ a ∈ l ∧ p a = true := fun _ => List.mem_filter
  rw [List.countP_eq_length_filter]
  generalize l.filter p = found at hnodup hmem
  constructor
  · intro hle a ha b hb hpa hpb
    have ha' := (hmem a).mpr ⟨ha, hpa⟩
    have hb' := (hmem b).mpr ⟨hb, hpb⟩
    match found, hle with
    | [c], _ => rw [List.mem_singleton.mp ha', List.mem_singleton.mp hb']
  · intro hall
    match found with
    | [] => exact Nat.zero_le 1
    | [_] => exact Nat.le_refl 1
    | a :: b :: rest =>
      obtain ⟨ha, hpa⟩ := (hmem a).mp (by simp)
      obtain ⟨hb, hpb⟩ := (hmem b).mp (by simp)
      have hne := (List.nodup_cons.mp hnodup).1
      rw [hall a ha b hb hpa hpb] at hne
      exact absurd List.mem_cons_self hne

section violations

variable (h : ∀ v, Suppressed violations v →
  1 ≤ v.line ∧ v.line ≤ v.endLine ∧ v.endLine ≤ lines.length)
include h

theorem range_eq {v : Violation} (hv : Suppressed violations v) : range v = (v.line, v.endLine) :=
  range_of_le (h v hv).1 (h v hv).2.1

theorem exists_violation {g : Group} (hg : g ∈ (Plan.ofViolations violations).naming r) :
    ∃ v, Suppressed violations v ∧ v.rule = r ∧ v.line = g.start ∧ v.endLine = g.stop := by
  obtain ⟨hplan, hr⟩ := mem_naming.mp hg
  obtain ⟨v, hv, hrange, hrule⟩ := (mem_rules hplan).mp hr
  rw [range_eq h hv, Prod.mk.injEq] at hrange
  exact ⟨v, hv, hrule, hrange⟩

theorem exists_naming {v : Violation} (hv : Suppressed violations v) (hr : v.rule = r) :
    ∃ g ∈ (Plan.ofViolations violations).naming r, v.line = g.start ∧ v.endLine = g.stop := by
  obtain ⟨g, hg, hrange, hrule⟩ := exists_group hv
  rw [range_eq h hv, Prod.mk.injEq] at hrange
  exact ⟨g, mem_naming.mpr ⟨hg, hr ▸ hrule⟩, hrange.1.symm, hrange.2.symm⟩

theorem ordered_naming (r : Text.Units) (g : Group) (hg : g ∈ (Plan.ofViolations violations).naming r) :
    1 ≤ g.start ∧ g.start ≤ g.stop := by
  obtain ⟨v, hv, -, hstart, hstop⟩ := exists_violation h hg
  rw [← hstart, ← hstop]
  exact ⟨(h v hv).1, (h v hv).2.1⟩

theorem covering_pos (i : Nat) : 0 < covering ((Plan.ofViolations violations).naming r) i ↔
    ∃ v, Suppressed violations v ∧ v.rule = r ∧ v.line ≤ i ∧ i ≤ v.endLine := by
  rw [covering, List.countP_pos_iff]
  simp only [decide_eq_true_eq]
  constructor
  · rintro ⟨g, hg, hstart, hstop⟩
    obtain ⟨v, hv, hrule, hline, hend⟩ := exists_violation h hg
    exact ⟨v, hv, hrule, by omega, by omega⟩
  · rintro ⟨v, hv, hrule, hline, hend⟩
    obtain ⟨g, hg, hstart, hstop⟩ := exists_naming h hv hrule
    exact ⟨g, hg, by omega, by omega⟩

/-- No line is in two ranges of a rule exactly if these are apart. -/
theorem covering_le_one : (∀ i, 1 ≤ i → i ≤ lines.length →
    covering ((Plan.ofViolations violations).naming r) i ≤ 1) ↔ Apart violations r := by
  have hnodup : ((Plan.ofViolations violations).naming r).Nodup :=
    nodup_plan.sublist List.filter_sublist
  constructor
  · intro hone v v' hv hv' hr hr'
    obtain ⟨g, hg, hstart, hstop⟩ := exists_naming h hv hr
    obtain ⟨g', hg', hstart', hstop'⟩ := exists_naming h hv' hr'
    obtain ⟨hfirst, hle, hlast⟩ := h v hv
    obtain ⟨hfirst', hle', hlast'⟩ := h v' hv'
    refine Decidable.or_iff_not_imp_right.mpr fun hcommon => ?_
    -- The later of the two first lines is in both ranges.
    have hboth := (countP_le_one hnodup _).mp
      (hone (max v.line v'.line).toNat (by omega) (by omega)) g hg g' hg'
    have heq : g = g' := by
      refine hboth ?_ ?_ <;> rw [decide_eq_true_eq]
      · exact ⟨by omega, by omega⟩
      · exact ⟨by omega, by omega⟩
    rw [hstart, hstart', hstop, hstop', heq]
    exact ⟨rfl, rfl⟩
  · intro hapart i _ _
    refine (countP_le_one hnodup _).mpr fun g hg g' hg' hin hin' => ?_
    rw [decide_eq_true_eq] at hin hin'
    obtain ⟨v, hv, hr, hline, hend⟩ := exists_violation h hg
    obtain ⟨v', hv', hr', hline', hend'⟩ := exists_violation h hg'
    have hsame := hapart v v' hv hv' hr hr'
    exact eq_of_range (mem_naming.mp hg).1 (mem_naming.mp hg').1 (by omega) (by omega)

theorem commandsFor_around : commandsFor r (around (Plan.ofViolations violations) lines).marks =
    (List.range' 1 lines.length).flatMap (commandsAt ((Plan.ofViolations violations).naming r)) := by
  have htail : (Plan.ofViolations violations).flatMap (pastEnd lines.length) = [] := by
    refine List.flatMap_eq_nil_iff.mpr fun g hg => ?_
    obtain ⟨v, hv, rfl⟩ := mem_plan.mp hg
    obtain ⟨-, hle, hlast⟩ := h v hv
    rw [groupOf, range_eq h hv, pastEnd, if_neg (by dsimp only; omega), if_neg (by dsimp only; omega)]
    rfl
  rw [marks_around, commandsFor_append, commandsFor_lines, htail]
  exact List.append_nil _

theorem openBefore_one : openBefore ((Plan.ofViolations violations).naming r) 1 = 0 := by
  rw [openBefore, List.countP_eq_zero]
  intro g hg
  have hstart := (ordered_naming h r g hg).1
  rw [decide_eq_true_eq]
  rintro ⟨hlt, -⟩
  omega

theorem openBefore_end :
    openBefore ((Plan.ofViolations violations).naming r) (1 + lines.length) = 0 := by
  rw [openBefore, List.countP_eq_zero]
  intro g hg
  obtain ⟨v, hv, -, -, hstop⟩ := exists_violation h hg
  have hlast := (h v hv).2.2
  rw [decide_eq_true_eq]
  rintro ⟨-, hle⟩
  omega

/-- The commands for a rule alternate exactly if no line is in two of its ranges. -/
theorem alternate_around : alternate false (commandsFor r
      (around (Plan.ofViolations violations) lines).marks) = true ↔
    ∀ i, 1 ≤ i → i ≤ lines.length → covering ((Plan.ofViolations violations).naming r) i ≤ 1 := by
  have hordered := ordered_naming h r
  have hstart : openBefore ((Plan.ofViolations violations).naming r) 1 = 0 := openBefore_one h
  have halternate := alternate_iff (openBefore_succ hordered) 1 lines.length (by omega)
  rw [hstart] at halternate
  rw [commandsFor_around h]
  refine halternate.trans ?_
  simp only [covering_eq hordered, openBefore_end h, and_true]
  exact forall₂_congr fun i _ => ⟨fun hle hi => hle (by omega), fun hle hi => hle (by omega)⟩

/-- If none is, the rule is off on the lines of its ranges. -/
theorem isOff_around (hone : ∀ i, 1 ≤ i → i ≤ lines.length →
      covering ((Plan.ofViolations violations).naming r) i ≤ 1) {i : Nat} (hi : i < lines.length) :
    isOff (commandsFor r (marksAbove (i + 1) (around (Plan.ofViolations violations) lines).marks)) =
        true ↔ 0 < covering ((Plan.ofViolations violations).naming r) (i + 1) := by
  have hordered := ordered_naming h r
  have hoff := isOff_iff_depth (openBefore_succ hordered) (openBefore_one h) i
    fun j hj hle => by
      rw [covering_eq hordered]
      exact hone j hj (by omega)
  have hcovering := covering_eq hordered (i + 1)
  have hle := hone (i + 1) (by omega) hi
  rw [commandsFor_marksAbove hi, isOff_append_opens]
  refine (or_congr_right hoff).trans ?_
  omega

end violations

/-- The block comments of a plan are brackets for a rule exactly if no two of its ranges overlap. -/
theorem brackets_iff_apart (hlines : lines ≠ []) (hrange : ∀ v ∈ violations, v.severity = .error →
      1 ≤ v.line ∧ v.line ≤ v.endLine ∧ v.endLine ≤ lines.length) :
    ∃ page, (Plan.ofViolations violations).foldlM enclose (ofLines lines) = .ok page ∧
      (Plan.ofViolations violations).apply .block lines = .ok (page.marks.map Mark.text) ∧
      page.marks.filterMap Mark.line? = lines.zipIdx 1 ∧
      ∀ r, Brackets violations r lines.length page.marks ↔ Apart violations r := by
  have h : ∀ v, Suppressed violations v →
      1 ≤ v.line ∧ v.line ≤ v.endLine ∧ v.endLine ≤ lines.length :=
    fun v hv => hrange v hv.1 hv.2
  have hpage := foldlM_enclose hlines (Plan.ofViolations violations)
  refine ⟨around (Plan.ofViolations violations) lines, hpage, ?_, ?_, fun r => ?_⟩
  · rw [Plan.apply, map_text_marks]
    simp only [hpage, bind, Except.bind, pure, Except.pure]
  · rw [line?_marks, lines_around]
  constructor
  · intro hbrackets
    exact (covering_le_one h).mp ((alternate_around h).mp hbrackets.alternate)
  · intro hapart
    have hone := (covering_le_one h).mpr hapart
    refine ⟨(alternate_around h).mpr hone, fun i hfirst hlast => ?_⟩
    obtain ⟨j, rfl⟩ : ∃ j, i = j + 1 := ⟨i - 1, by omega⟩
    rw [isOff_around h hone hlast, covering_pos h]

/-- Ranges of different rules may cross. -/
theorem brackets_crossing_sample :
    let violations : List Violation :=
      [⟨.error, 1, 2, Text.unitsOf "a", []⟩, ⟨.error, 2, 3, Text.unitsOf "b", []⟩]
    let lines := ["x", "y", "z"].map Text.unitsOf
    ∃ page, (Plan.ofViolations violations).foldlM enclose (ofLines lines) = .ok page ∧
      (Plan.ofViolations violations).apply .block lines = .ok (page.marks.map Mark.text) ∧
      page.marks.filterMap Mark.line? = lines.zipIdx 1 ∧
      ∀ r, Brackets violations r lines.length page.marks ↔ Apart violations r :=
  brackets_iff_apart (by decide) (by decide)

/-- Ranges of one rule may not: it is on again after the first of them ends. -/
theorem overlap_sample :
    let violations : List Violation :=
      [⟨.error, 1, 5, Text.unitsOf "r", []⟩, ⟨.error, 3, 7, Text.unitsOf "r", []⟩]
    let lines := ["1", "2", "3", "4", "5", "6", "7", "8"].map Text.unitsOf
    ∃ page, (Plan.ofViolations violations).foldlM enclose (ofLines lines) = .ok page ∧
      commandsFor (Text.unitsOf "r") page.marks = [.disable, .disable, .enable, .enable] ∧
      isOff (commandsFor (Text.unitsOf "r") (marksAbove 6 page.marks)) = false := by
  intro violations lines
  have hplan : Plan.ofViolations violations =
      [⟨1, 5, [Text.unitsOf "r"]⟩, ⟨3, 7, [Text.unitsOf "r"]⟩] :=
    (List.mergeSort_of_pairwise (by decide +kernel)).trans (by decide +kernel)
  rw [hplan]
  exact ⟨_, foldlM_enclose (by decide) _, by decide +kernel, by decide +kernel⟩

end LintDebt.Suppression
